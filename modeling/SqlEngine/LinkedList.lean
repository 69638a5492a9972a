import Mathlib.Data.List.Sort
import Mathlib.Logic.Function.Basic
/-!
# LinkedList — lists of nodes, as `linked_list_functions.h` has them

Nodes lie in a heap, by address.  To follow, write or free a null or freed pointer is undefined, and the result is then
`none`. `Owns` says which nodes a list is made of, and `Moves` what a function may do to the heap; the functions that
stacks and queues call have one lemma each.
-/
namespace Sql
namespace LinkedList

structure Node (T : Type) where
  item : T
  next : Option Nat
  prev : Option Nat

/-- An address is given out once. -/
structure Heap (T : Type) where
  fresh : Nat
  node : Nat → Option (Node T)

namespace Heap
variable {T : Type} (h : Heap T)

/-- `new node(item)`. -/
def new (item : T) : Nat × Heap T := (h.fresh, ⟨h.fresh + 1, Function.update h.node h.fresh (some ⟨item, none, none⟩)⟩)

def setNext (p : Nat) (q : Option Nat) : Option (Heap T) := do
  let n ← h.node p
  pure { h with node := Function.update h.node p (some { n with next := q }) }

def setPrev (p : Nat) (q : Option Nat) : Option (Heap T) := do
  let n ← h.node p
  pure { h with node := Function.update h.node p (some { n with prev := q }) }

def delete (p : Nat) : Option (Heap T) := do
  let _ ← h.node p
  pure { h with node := Function.update h.node p none }

/-! ## The functions

Loops and recursions run with a bound on their steps.  A function that is given the head by reference returns it, too. -/

def lastNode : Nat → Option Nat → Option (Option Nat)
  | _, none => some none
  | 0, some _ => none
  | fuel + 1, some p => do
    let n ← h.node p
    if n.next = none then pure (some p) else lastNode fuel n.next

/-- The address of the new node, which is the head. -/
def insertHead (head : Option Nat) (item : T) : Option (Nat × Heap T) := do
  let (p, h) := h.new item
  match head with
  | none => pure (p, h)
  | some q =>
    let h ← h.setNext p (some q)
    let h ← h.setPrev q (some p)
    pure (p, h)

/-- The three lines that put a new node behind the last one. -/
def attach (last : Nat) (item : T) : Option (Nat × Heap T) := do
  let (p, h) := h.new item
  let h ← h.setNext last (some p)
  let h ← h.setPrev p (some last)
  pure (p, h)

def insertTail (fuel : Nat) (head : Option Nat) (item : T) : Option (Nat × Option Nat × Heap T) := do
  match ← h.lastNode fuel head with
  | none =>
    let (p, h) ← h.insertHead head item
    pure (p, some p, h)
  | some last =>
    let (p, h) ← h.attach last item
    pure (p, head, h)

def insertAfter (fuel : Nat) (head afterThis : Option Nat) (item : T) : Option (Nat × Option Nat × Heap T) := do
  match head with
  | none =>
    let (p, h) ← h.insertHead head item
    pure (p, some p, h)
  | some first =>
    let n ← h.node first
    let last ← h.lastNode fuel head
    if (n.next = none ∧ head = afterThis) ∨ afterThis = last then h.insertTail fuel head item
    else
      let (p, h) := h.new item
      let front ← afterThis
      let nextNode := (← h.node front).next
      let h ← h.setNext p nextNode
      let h ← h.setPrev (← nextNode) (some p)
      let h ← h.setNext front (some p)
      let h ← h.setPrev p (some front)
      pure (p, head, h)

/-- The item of the node, and the head. -/
def deleteNode (fuel : Nat) (head deleteThis : Option Nat) : Option (T × Option Nat × Heap T) := do
  let p ← deleteThis
  let n ← h.node p
  if head = deleteThis then
    let h ← h.delete p
    pure (n.item, n.next, h)
  else
    let last ← h.lastNode fuel head
    if deleteThis = last then
      match n.prev with
      | none =>
        let h ← h.delete p
        pure (n.item, head, h)
      | some front =>
        let h ← h.setNext front none
        let h ← h.delete p
        pure (n.item, head, h)
    else
      let h ← h.setNext (← n.prev) n.next
      let h ← h.setPrev (← n.next) n.prev
      let h ← h.delete p
      pure (n.item, head, h)

def copyLoop (h : Heap T) : Nat → Nat → Nat → Option (Heap T)
  | 0, _, _ => none
  | fuel + 1, headWalker, newNode => do
    let n ← h.node headWalker
    match n.next with
    | none => pure h
    | some q =>
      let nextNode ← h.node q
      let (p, h) ← h.attach newNode nextNode.item
      copyLoop h fuel q p

/-- The head of the copy. -/
def copyList (fuel : Nat) (head : Option Nat) : Option (Option Nat × Heap T) := do
  match head with
  | none => pure (none, h)
  | some headWalker =>
    let n ← h.node headWalker
    let (newNode, h) := h.new n.item
    let h ← h.copyLoop fuel headWalker newNode
    pure (some newNode, h)

/-- The head is null afterwards. -/
def clearList (h : Heap T) : Nat → Option Nat → Option (Heap T)
  | _, none => some h
  | 0, some _ => none
  | fuel + 1, some p => do
    let n ← h.node p
    let h ← h.delete p
    clearList h fuel n.next

/-- `_copy_list(dest, src)`, with the new head and the last node of the copy. -/
def copyInto (fuel : Nat) (dest src : Option Nat) : Option (Option Nat × Option Nat × Heap T) := do
  let h ← if dest = none then some h else h.clearList fuel dest
  let (dest, h) ← h.copyList fuel src
  let last ← h.lastNode fuel dest
  pure (dest, last, h)

/-- `end()`: what is behind the last node. -/
def endOf (fuel : Nat) (head : Option Nat) : Option (Option Nat) := do
  let last ← h.lastNode fuel head
  let n ← h.node (← last)
  pure n.next

def visitLoop (stop : Option Nat) : Nat → Option Nat → Option (List T)
  | 0, _ => none
  | fuel + 1, it => if it = stop then some [] else do
    let n ← h.node (← it)
    let items ← visitLoop stop fuel n.next
    pure (n.item :: items)

/-- `for (it = begin(); it != end(); it++)`, with the items visited. -/
def visit (fuel : Nat) (head : Option Nat) : Option (List T) := do
  let stop ← h.endOf fuel head
  h.visitLoop stop fuel head

def indexLoop (stop : Option Nat) (i : Int) : Nat → Int → Option Nat → Option (Option Nat)
  | 0, _, _ => none
  | fuel + 1, idx, it => if it = stop then some it else if idx = i then some it else do
    let n ← h.node (← it)
    indexLoop stop i fuel (idx + 1) n.next

/-- `operator[]`. -/
def index (fuel : Nat) (head : Option Nat) (i : Int) : Option T := do
  let stop ← h.endOf fuel head
  let it ← h.indexLoop stop i fuel 0 head
  let n ← h.node (← it)
  pure n.item

/-! ## Lists in the heap -/

/-- The pointer leads along nodes with these addresses and items to null. -/
def Chain : Option Nat → List Nat → List T → Prop
  | p, [], [] => p = none
  | p, a :: as, x :: xs => p = some a ∧ ∃ n, h.node a = some n ∧ n.item = x ∧ Chain n.next as xs
  | _, _, _ => False

/-- **A list with nodes of its own.** -/
structure Owns (p : Option Nat) (as : List Nat) (xs : List T) : Prop where
  chain : h.Chain p as xs
  nodup : as.Nodup
  lt : ∀ a ∈ as, a < h.fresh

/-- **What becomes of a heap** when some nodes become others: the rest stays, what is new was not there, and the nodes
that are gone are freed. -/
structure Moves (h h' : Heap T) (as as' : List Nat) : Prop where
  fresh_le : h.fresh ≤ h'.fresh
  mem : ∀ a ∈ as', a ∈ as ∨ h.fresh ≤ a
  frame : ∀ a < h.fresh, a ∉ as → h'.node a = h.node a
  live : ∀ a, (h'.node a).isSome → a ∈ as' ∨ (h.node a).isSome ∧ a ∉ as

variable {h} {h' h'' : Heap T} {p : Option Nat} {as as' as'' : List Nat} {xs : List T}

theorem Chain.head : ∀ {p : Option Nat} {as : List Nat} {xs : List T}, h.Chain p as xs → p = as.head?
  | _, [], [], hc => hc
  | _, _ :: _, _ :: _, hc => hc.1

theorem Chain.length : ∀ {p : Option Nat} {as : List Nat} {xs : List T}, h.Chain p as xs → as.length = xs.length
  | _, [], [], _ => rfl
  | _, _ :: _, _ :: _, ⟨_, _, _, _, hc⟩ => congrArg Nat.succ hc.length

theorem Chain.nodes : ∀ {p : Option Nat} {as : List Nat} {xs : List T}, h.Chain p as xs → ∀ a ∈ as, ∃ n, h.node a = some n
  | _, _ :: _, _ :: _, ⟨_, n, hn, _, hc⟩, a, ha => by
    rcases List.mem_cons.1 ha with rfl | ha
    · exact ⟨n, hn⟩
    · exact hc.nodes a ha

/-- Links backwards do not matter. -/
theorem Chain.same : ∀ {p : Option Nat} {as : List Nat} {xs : List T}, h.Chain p as xs →
    (∀ a ∈ as, ∀ n, h.node a = some n → ∃ n', h'.node a = some n' ∧ n'.item = n.item ∧ n'.next = n.next) → h'.Chain p as xs
  | _, [], [], hc, _ => hc
  | _, a :: as, _ :: _, ⟨hp, n, hn, hitem, hc⟩, hsame => by
    obtain ⟨n', hn', hitem', hnext⟩ := hsame a List.mem_cons_self n hn
    have hrest := hc.same (fun b hb => hsame b (List.mem_cons_of_mem a hb))
    exact ⟨hp, n', hn', hitem'.trans hitem, hnext ▸ hrest⟩

theorem Chain.congr (hc : h.Chain p as xs) (hsame : ∀ a ∈ as, h'.node a = h.node a) : h'.Chain p as xs :=
  hc.same (fun a ha n hn => ⟨n, (hsame a ha).trans hn, rfl, rfl⟩)

theorem Moves.trans (hm : h.Moves h' as as') (hm' : h'.Moves h'' as' as'') : h.Moves h'' as as'' where
  fresh_le := hm.fresh_le.trans hm'.fresh_le
  mem a ha := (hm'.mem a ha).elim (hm.mem a) (fun hle => Or.inr (hm.fresh_le.trans hle))
  frame a hlt hn := by
    have hn' : a ∉ as' := fun ha => (hm.mem a ha).elim hn (fun hle => absurd hlt (Nat.not_lt.2 hle))
    rw [hm'.frame a (hlt.trans_le hm.fresh_le) hn', hm.frame a hlt hn]
  live a ha := by
    rcases hm'.live a ha with hmem | ⟨hlive, hn⟩
    · exact Or.inl hmem
    · exact Or.inr ((hm.live a hlive).resolve_left hn)

/-- A list that does not take part. -/
theorem Owns.frame {bs : List Nat} {ys : List T} {q : Option Nat} (ho : h.Owns q bs ys) (hm : h.Moves h' as as')
    (hdisjoint : ∀ b ∈ bs, b ∉ as) : h'.Owns q bs ys :=
  ⟨ho.chain.congr (fun b hb => hm.frame b (ho.lt b hb) (hdisjoint b hb)), ho.nodup,
    fun b hb => (ho.lt b hb).trans_le hm.fresh_le⟩

theorem lastNode_chain : ∀ {p : Option Nat} {as : List Nat} {xs : List T} (fuel : Nat), h.Chain p as xs → as.length ≤ fuel →
    h.lastNode fuel p = some as.getLast?
  | _, [], [], fuel, hc, _ => by
    obtain rfl : _ = none := hc
    cases fuel <;> rfl
  | _, _ :: _, _ :: _, 0, _, hle => absurd hle (Nat.not_succ_le_zero _)
  | _, [a], [x], fuel + 1, ⟨hp, n, hn, _, hc⟩, _ => by
    have hnext : n.next = none := hc
    rw [hp, lastNode, hn]
    simp [hnext]
  | _, a :: b :: as, x :: y :: xs, fuel + 1, ⟨hp, n, hn, _, hc⟩, hle => by
    have ih := lastNode_chain fuel hc (Nat.le_of_succ_le_succ hle)
    have hnext : n.next = some b := hc.head
    rw [hp, lastNode, hn]
    simp only [Option.bind_eq_bind, Option.bind_some]
    rw [if_neg (by simp [hnext]), ih, List.getLast?_cons_cons]

/-! ## What the functions do -/

/-- One node is changed, or freed. -/
structure Sets (h h' : Heap T) (a : Nat) (n : Option (Node T)) : Prop where
  fresh_eq : h'.fresh = h.fresh
  self : h'.node a = n
  other : ∀ b, b ≠ a → h'.node b = h.node b

theorem setNext_spec {a : Nat} {n : Node T} (hn : h.node a = some n) (q : Option Nat) :
    ∃ h', h.setNext a q = some h' ∧ h.Sets h' a (some { n with next := q }) := by
  rw [setNext, hn]
  exact ⟨_, rfl, rfl, Function.update_self .., fun b hb => Function.update_of_ne hb _ _⟩

theorem setPrev_spec {a : Nat} {n : Node T} (hn : h.node a = some n) (q : Option Nat) :
    ∃ h', h.setPrev a q = some h' ∧ h.Sets h' a (some { n with prev := q }) := by
  rw [setPrev, hn]
  exact ⟨_, rfl, rfl, Function.update_self .., fun b hb => Function.update_of_ne hb _ _⟩

theorem delete_spec {a : Nat} {n : Node T} (hn : h.node a = some n) : ∃ h', h.delete a = some h' ∧ h.Sets h' a none := by
  rw [delete, hn]
  exact ⟨_, rfl, rfl, Function.update_self .., fun b hb => Function.update_of_ne hb _ _⟩

theorem new_self (h : Heap T) (item : T) : (h.new item).2.node h.fresh = some ⟨item, none, none⟩ := Function.update_self ..

theorem new_other {a : Nat} (hne : a ≠ h.fresh) (item : T) : (h.new item).2.node a = h.node a :=
  Function.update_of_ne hne _ _

theorem Owns.fresh_notMem (ho : h.Owns p as xs) : h.fresh ∉ as := fun hmem => lt_irrefl _ (ho.lt _ hmem)

/-- One new node, among a list's other nodes. -/
theorem moves_new (hfresh : h'.fresh = h.fresh + 1) (hmem : ∀ a, a ∈ as' ↔ a = h.fresh ∨ a ∈ as)
    (hold : ∀ a, a ≠ h.fresh → a ∉ as → h'.node a = h.node a) : h.Moves h' as as' where
  fresh_le := hfresh ▸ Nat.le_succ _
  mem a ha := ((hmem a).1 ha).elim (fun heq => Or.inr heq.ge) Or.inl
  frame a hlt hn := hold a hlt.ne hn
  live a ha := by
    by_cases hnew : a ∈ as'
    · exact Or.inl hnew
    · rw [hmem, not_or] at hnew
      rw [hold a hnew.1 hnew.2] at ha
      exact Or.inr ⟨ha, hnew.2⟩

theorem insertHead_spec (ho : h.Owns p as xs) (x : T) : ∃ h', h.insertHead p x = some (h.fresh, h') ∧
    h'.Owns (some h.fresh) (h.fresh :: as) (x :: xs) ∧ h.Moves h' as (h.fresh :: as) := by
  have hnodup : (h.fresh :: as).Nodup := List.nodup_cons.2 ⟨ho.fresh_notMem, ho.nodup⟩
  have hlt : ∀ a ∈ h.fresh :: as, a < h.fresh + 1 := fun a ha =>
    (List.mem_cons.1 ha).elim (fun heq => heq ▸ Nat.lt_succ_self _) (fun hmem => (ho.lt a hmem).trans (Nat.lt_succ_self _))
  have hmem : ∀ a, a ∈ h.fresh :: as ↔ a = h.fresh ∨ a ∈ as := fun a => List.mem_cons
  obtain ⟨hchain, hasnodup, haslt⟩ := ho
  match as, xs, hchain, haslt with
  | [], [], hnull, _ =>
    obtain rfl : p = none := hnull
    exact ⟨(h.new x).2, rfl, ⟨⟨rfl, _, h.new_self x, rfl, rfl⟩, hnodup, hlt⟩,
      moves_new rfl hmem (fun a hne _ => new_other hne x)⟩
  | a :: as, y :: ys, hchain, haslt =>
    obtain rfl : p = some a := hchain.head
    obtain ⟨n, hn⟩ := hchain.nodes a List.mem_cons_self
    have hne : a ≠ h.fresh := (haslt a List.mem_cons_self).ne
    obtain ⟨h1, hset1, hfresh1, hself1, hother1⟩ := setNext_spec (h.new_self x) (some a)
    obtain ⟨h2, hset2, hfresh2, hself2, hother2⟩ :=
      setPrev_spec ((hother1 a hne).trans ((new_other hne x).trans hn)) (some h.fresh)
    have hfirst : h2.node h.fresh = some ⟨x, some a, none⟩ := (hother2 _ hne.symm).trans hself1
    have hold : ∀ b, b ≠ h.fresh → b ≠ a → h2.node b = h.node b := fun b hb hba =>
      (hother2 b hba).trans ((hother1 b hb).trans (new_other hb x))
    have hsame : h2.Chain (some a) (a :: as) (y :: ys) := hchain.same (fun b hb m hm => by
      by_cases hba : b = a
      · subst hba
        obtain rfl := Option.some.inj (hn.symm.trans hm)
        exact ⟨_, hself2, rfl, rfl⟩
      · exact ⟨m, (hold b (haslt b hb).ne hba).trans hm, rfl, rfl⟩)
    have hfresh : h2.fresh = h.fresh + 1 := hfresh2.trans hfresh1
    refine ⟨h2, ?_, ⟨⟨rfl, _, hfirst, rfl, hsame⟩, hnodup, hfresh ▸ hlt⟩,
      moves_new hfresh hmem (fun b hb hn => hold b hb (fun heq => hn (heq ▸ List.mem_cons_self)))⟩
    rw [insertHead, show h.new x = (h.fresh, (h.new x).2) from rfl]
    simp only [Option.bind_eq_bind, hset1, Option.bind_some, hset2]
    rfl

/-- The last node is linked to a new one. -/
theorem chain_snoc {c : Nat} {x : T} (hnew : ∃ n, h'.node c = some n ∧ n.item = x ∧ n.next = none) :
    ∀ {p : Option Nat} {as : List Nat} {xs : List T}, h.Chain p as xs → as.Nodup → ∀ {last : Nat}, as.getLast? = some last →
      (∀ n, h.node last = some n → ∃ n', h'.node last = some n' ∧ n'.item = n.item ∧ n'.next = some c) →
      (∀ a ∈ as, a ≠ last → h'.node a = h.node a) → h'.Chain p (as ++ [c]) (xs ++ [x])
  | _, [a], [y], ⟨hp, n, hn, hitem, _⟩, _, last, hlast, hlink, _ => by
    obtain rfl : a = last := Option.some.inj hlast
    obtain ⟨n', hn', hitem', hnext⟩ := hlink n hn
    obtain ⟨m, hm, hx, hnull⟩ := hnew
    exact ⟨hp, n', hn', hitem'.trans hitem, hnext, m, hm, hx, hnull⟩
  | _, a :: b :: as, y :: z :: xs, ⟨hp, n, hn, hitem, hc⟩, hnodup, last, hlast, hlink, hother => by
    rw [List.getLast?_cons_cons] at hlast
    obtain ⟨hnot, hrest⟩ := List.nodup_cons.1 hnodup
    have hne : a ≠ last := fun heq => hnot (heq ▸ List.mem_of_getLast? hlast)
    have ih := chain_snoc hnew hc hrest hlast hlink (fun d hd hdl => hother d (List.mem_cons_of_mem a hd) hdl)
    exact ⟨hp, n, (hother a List.mem_cons_self hne).trans hn, hitem, ih⟩

/-- **A new node behind the last one.** -/
theorem attach_spec (ho : h.Owns p as xs) {last : Nat} (hlast : as.getLast? = some last) (x : T) :
    ∃ h', h.attach last x = some (h.fresh, h') ∧ h'.Owns p (as ++ [h.fresh]) (xs ++ [x]) ∧
      h.Moves h' as (as ++ [h.fresh]) := by
  have hmem := List.mem_of_getLast? hlast
  have hne : last ≠ h.fresh := (ho.lt last hmem).ne
  obtain ⟨n, hn⟩ := ho.chain.nodes last hmem
  obtain ⟨h1, hset1, hfresh1, hself1, hother1⟩ := setNext_spec ((new_other hne x).trans hn) (some h.fresh)
  obtain ⟨h2, hset2, hfresh2, hself2, hother2⟩ := setPrev_spec ((hother1 _ hne.symm).trans (h.new_self x)) (some last)
  have hold : ∀ b, b ≠ h.fresh → b ≠ last → h2.node b = h.node b := fun b hb hbl =>
    (hother2 b hb).trans ((hother1 b hbl).trans (new_other hb x))
  have hfresh : h2.fresh = h.fresh + 1 := hfresh2.trans hfresh1
  have hchain : h2.Chain p (as ++ [h.fresh]) (xs ++ [x]) := by
    refine chain_snoc ⟨_, hself2, rfl, rfl⟩ ho.chain ho.nodup hlast (fun m hm => ?_) (fun a ha hal => ?_)
    · obtain rfl := Option.some.inj (hn.symm.trans hm)
      exact ⟨_, (hother2 last hne).trans hself1, rfl, rfl⟩
    · exact hold a (ho.lt a ha).ne hal
  refine ⟨h2, ?_, ⟨hchain, ?_, fun a ha => ?_⟩, moves_new hfresh (fun a => by simp [or_comm]) (fun b hb hnot => ?_)⟩
  · rw [attach, show h.new x = (h.fresh, (h.new x).2) from rfl]
    simp only [Option.bind_eq_bind, hset1, Option.bind_some, hset2]
    rfl
  · exact List.nodup_append.2 ⟨ho.nodup, List.nodup_singleton _, fun a ha b hb heq =>
      ho.fresh_notMem ((List.mem_singleton.1 hb ▸ heq : a = h.fresh) ▸ ha)⟩
  · rw [hfresh]
    rcases List.mem_append.1 ha with ha | ha
    · exact (ho.lt a ha).trans (Nat.lt_succ_self _)
    · exact List.mem_singleton.1 ha ▸ Nat.lt_succ_self _
  · exact hold b hb (fun heq => hnot (heq ▸ hmem))

/-- **`_insert_after` at the last node.** -/
theorem insertAfter_spec (ho : h.Owns p as xs) {last : Nat} (hlast : as.getLast? = some last) {fuel : Nat}
    (hfuel : as.length ≤ fuel)
    (x : T) : ∃ h', h.insertAfter fuel p (some last) x = some (h.fresh, p, h') ∧ h'.Owns p (as ++ [h.fresh]) (xs ++ [x]) ∧
      h.Moves h' as (as ++ [h.fresh]) := by
  obtain ⟨h', hattach, howns, hmoves⟩ := attach_spec ho hlast x
  have hlastNode := lastNode_chain fuel ho.chain hfuel
  rw [hlast] at hlastNode
  refine ⟨h', ?_, howns, hmoves⟩
  match as, xs, ho.chain, hlast with
  | a :: as, y :: ys, ⟨hp, n, hn, _⟩, _ =>
    subst hp
    rw [insertAfter]
    simp only [hn, hlastNode, Option.bind_eq_bind, Option.bind_some, or_true, if_true, insertTail, hattach]
    rfl

/-- **`_delete_node` of the head.** -/
theorem deleteNode_spec {a : Nat} {x : T} (ho : h.Owns p (a :: as) (x :: xs)) (fuel : Nat) :
    ∃ h', h.deleteNode fuel p p = some (x, as.head?, h') ∧ h'.Owns as.head? as xs ∧ h.Moves h' (a :: as) as := by
  obtain ⟨⟨rfl, n, hn, rfl, hrest⟩, hnodup, hlt⟩ := ho
  obtain ⟨hnot, hnodup'⟩ := List.nodup_cons.1 hnodup
  obtain ⟨h', hdelete, hfresh, hself, hother⟩ := delete_spec hn
  have hnext := hrest.head
  have hsame : ∀ b ∈ as, h'.node b = h.node b := fun b hb => hother b (fun heq => hnot (heq ▸ hb))
  refine ⟨h', ?_, ⟨hnext ▸ hrest.congr hsame, hnodup', fun b hb => hfresh ▸ hlt b (List.mem_cons_of_mem a hb)⟩,
    hfresh.ge, fun b hb => Or.inl (List.mem_cons_of_mem a hb), fun b _ hb => ?_, fun b hb => ?_⟩
  · rw [deleteNode]
    simp only [hn, hdelete, Option.bind_eq_bind, Option.bind_some, if_true, hnext]
    rfl
  · exact hother b (fun heq => hb (heq ▸ List.mem_cons_self))
  · by_cases heq : b = a
    · rw [heq, hself] at hb
      cases hb
    · by_cases hmem : b ∈ as
      · exact Or.inl hmem
      · rw [hother b heq] at hb
        exact Or.inr ⟨hb, fun hcons => (List.mem_cons.1 hcons).elim heq hmem⟩

theorem clearList_spec : ∀ {h : Heap T} {p : Option Nat} {as : List Nat} {xs : List T} (fuel : Nat), h.Owns p as xs →
    as.length ≤ fuel → ∃ h', h.clearList fuel p = some h' ∧ h.Moves h' as []
  | h, _, [], [], fuel, ho, _ => by
    obtain rfl : _ = none := ho.chain
    refine ⟨h, by cases fuel <;> rfl, le_refl _, fun a ha => absurd ha List.not_mem_nil, fun _ _ _ => rfl,
      fun a ha => Or.inr ?_⟩
    exact ⟨ha, List.not_mem_nil⟩
  | _, _, _ :: _, _ :: _, 0, _, hle => absurd hle (Nat.not_succ_le_zero _)
  | h, p, a :: as, x :: xs, fuel + 1, ho, hle => by
    obtain ⟨⟨hp, n, hn, -, hrest⟩, hnodup, hlt⟩ := ho
    obtain ⟨hnot, hnodup'⟩ := List.nodup_cons.1 hnodup
    obtain ⟨h1, hdelete, hfresh, hself, hother⟩ := delete_spec hn
    have hsame : ∀ b ∈ as, h1.node b = h.node b := fun b hb => hother b (fun heq => hnot (heq ▸ hb))
    obtain ⟨h', hclear, hmoves⟩ := clearList_spec fuel (h := h1)
      ⟨hrest.congr hsame, hnodup', fun b hb => hfresh ▸ hlt b (List.mem_cons_of_mem a hb)⟩ (Nat.le_of_succ_le_succ hle)
    have hfirst : h.Moves h1 (a :: as) as := by
      refine ⟨hfresh.ge, fun b hb => Or.inl (List.mem_cons_of_mem a hb), fun b _ hb => ?_, fun b hb => ?_⟩
      · exact hother b (fun heq => hb (heq ▸ List.mem_cons_self))
      · by_cases heq : b = a
        · rw [heq, hself] at hb
          cases hb
        · by_cases hmem : b ∈ as
          · exact Or.inl hmem
          · rw [hother b heq] at hb
            exact Or.inr ⟨hb, fun hcons => (List.mem_cons.1 hcons).elim heq hmem⟩
    refine ⟨h', ?_, hfirst.trans hmoves⟩
    rw [hp, clearList, hn]
    simp only [Option.bind_eq_bind, Option.bind_some, hdelete, hclear]

/-! ### Copies -/

theorem Moves.refl (h : Heap T) (as : List Nat) : h.Moves h as as where
  fresh_le := le_refl _
  mem _ ha := Or.inl ha
  frame _ _ _ := rfl
  live a ha := (em (a ∈ as)).imp id (fun hn => ⟨ha, hn⟩)

theorem new_spec (h : Heap T) (x : T) :
    (h.new x).2.Owns (some h.fresh) [h.fresh] [x] ∧ h.Moves (h.new x).2 [] [h.fresh] := by
  refine ⟨⟨⟨rfl, _, h.new_self x, rfl, rfl⟩, List.nodup_singleton _, fun a ha => ?_⟩, moves_new rfl (fun a => by simp) ?_⟩
  · exact List.mem_singleton.1 ha ▸ Nat.lt_succ_self _
  · exact fun a hne _ => new_other hne x

/-- The copy grows behind its last node `c`; the walker is at `w`. -/
theorem copyLoop_spec : ∀ {h : Heap T} {w c : Nat} {ws cs : List Nat} {y : T} {ys zs : List T} {q : Option Nat} (fuel : Nat),
    h.Chain (some w) (w :: ws) (y :: ys) → (∀ a ∈ w :: ws, a < h.fresh ∧ a ∉ cs) → h.Owns q cs zs → cs.getLast? = some c →
      ws.length < fuel → ∃ ds h', h.copyLoop fuel w c = some h' ∧ h'.Owns q (cs ++ ds) (zs ++ ys) ∧ h.Moves h' cs (cs ++ ds)
  | _, _, _, _, _, _, _, _, _, 0, _, _, _, _, hlt => absurd hlt (Nat.not_lt_zero _)
  | h, w, c, [], cs, y, [], zs, q, fuel + 1, ⟨_, n, hn, _, hnull⟩, _, ho, _, _ => by
    have hnext : n.next = none := hnull
    refine ⟨[], h, ?_, ?_, ?_⟩
    · rw [copyLoop, hn]
      simp only [Option.bind_eq_bind, Option.bind_some, hnext]
      rfl
    · rw [List.append_nil, List.append_nil]
      exact ho
    · rw [List.append_nil]
      exact .refl h cs
  | h, w, c, w' :: ws, cs, y, y' :: ys, zs, q, fuel + 1, ⟨_, n, hn, _, hc⟩, hsrc, ho, hlast, hlt => by
    have hnext : n.next = some w' := hc.head
    obtain ⟨h1, hattach, howns, hmoves⟩ := attach_spec ho hlast y'
    rw [hnext] at hc
    have hrest : h1.Chain (some w') (w' :: ws) (y' :: ys) := hc.congr (fun a ha =>
      have ha' := hsrc a (List.mem_cons_of_mem w ha)
      hmoves.frame a ha'.1 ha'.2)
    obtain ⟨_, n', hn', rfl, _⟩ := hc
    obtain ⟨ds, h', hloop, howns', hmoves'⟩ := copyLoop_spec fuel hrest (fun a ha => by
      obtain ⟨hlt', hnot⟩ := hsrc a (List.mem_cons_of_mem w ha)
      refine ⟨hlt'.trans_le hmoves.fresh_le, fun hmem => ?_⟩
      rcases List.mem_append.1 hmem with hmem | hmem
      · exact hnot hmem
      · exact hlt'.ne (List.mem_singleton.1 hmem)) howns List.getLast?_concat (Nat.lt_of_succ_lt_succ hlt)
    rw [List.append_assoc, List.append_assoc] at howns'
    rw [List.append_assoc] at hmoves'
    refine ⟨h.fresh :: ds, h', ?_, howns', hmoves.trans hmoves'⟩
    rw [copyLoop, hn]
    simp only [Option.bind_eq_bind, Option.bind_some, hnext, hn', hattach, hloop]

/-- **A copy has the items, and nodes of its own.** -/
theorem copyList_spec (ho : h.Owns p as xs) {fuel : Nat} (hfuel : as.length ≤ fuel) : ∃ as' h', h.copyList fuel p =
    some (as'.head?, h') ∧ h'.Owns as'.head? as' xs ∧ h.Moves h' [] as' := by
  match as, xs, ho, hfuel with
  | [], [], ho, _ =>
    obtain rfl : p = none := ho.chain
    exact ⟨[], h, rfl, ⟨rfl, List.nodup_nil, ho.lt⟩, .refl h []⟩
  | a :: as, x :: xs, ⟨hchain, _, hlt⟩, hfuel =>
    obtain rfl : p = some a := hchain.head
    obtain ⟨howns, hmoves⟩ := h.new_spec x
    have hsame : (h.new x).2.Chain (some a) (a :: as) (x :: xs) :=
      hchain.congr (fun b hb => hmoves.frame b (hlt b hb) List.not_mem_nil)
    obtain ⟨ds, h', hloop, howns', hmoves'⟩ := copyLoop_spec fuel hsame (fun b hb =>
      ⟨(hlt b hb).trans_le hmoves.fresh_le, fun hmem => (hlt b hb).ne (List.mem_singleton.1 hmem)⟩) howns
      (show [h.fresh].getLast? = some h.fresh from rfl) hfuel
    obtain ⟨_, n, hn, rfl, _⟩ := hchain
    refine ⟨h.fresh :: ds, h', ?_, howns', hmoves.trans hmoves'⟩
    simp only [copyList, Option.bind_eq_bind, hn, Option.bind_some]
    rw [show h.new n.item = (h.fresh, (h.new n.item).2) from rfl]
    simp only [hloop, Option.bind_some]
    rfl

theorem copyInto_spec (ho : h.Owns p as xs) {fuel : Nat} (hfuel : as.length ≤ fuel) : ∃ as' h', h.copyInto fuel none p =
    some (as'.head?, as'.getLast?, h') ∧ h'.Owns as'.head? as' xs ∧ h.Moves h' [] as' := by
  obtain ⟨as', h', hcopy, howns, hmoves⟩ := copyList_spec ho hfuel
  have hlength : as'.length ≤ fuel := howns.chain.length.trans_le (ho.chain.length.ge.trans hfuel)
  refine ⟨as', h', ?_, howns, hmoves⟩
  rw [copyInto, if_pos rfl]
  simp only [Option.bind_eq_bind, Option.bind_some, hcopy, lastNode_chain fuel howns.chain hlength]
  rfl

/-! ### Iterators -/

theorem endOf_chain {a : Nat} {x : T} (hc : h.Chain p (a :: as) (x :: xs)) {fuel : Nat} (hfuel : as.length < fuel) :
    h.endOf fuel p = some none := by
  obtain ⟨last, hlast⟩ := Option.ne_none_iff_exists'.1 (mt List.getLast?_eq_none_iff.1 (List.cons_ne_nil a as))
  suffices hnext : ∀ {p : Option Nat} {as : List Nat} {xs : List T}, h.Chain p as xs → as.getLast? = some last →
      ∃ n, h.node last = some n ∧ n.next = none by
    obtain ⟨n, hn, hnull⟩ := hnext hc hlast
    rw [endOf, lastNode_chain fuel hc hfuel, hlast]
    simp only [Option.bind_eq_bind, Option.bind_some, hn, hnull]
    rfl
  intro p as
  induction as generalizing p with
  | nil => exact fun _ hnone => nomatch hnone
  | cons a as ih =>
    rintro (_ | ⟨x, xs⟩) hc hlast
    · exact hc.elim
    obtain ⟨_, n, hn, _, hc⟩ := hc
    cases as with
    | nil =>
      obtain rfl : a = last := Option.some.inj hlast
      exact ⟨n, hn, by cases xs with | nil => exact hc | cons _ _ => exact hc.elim⟩
    | cons b as => exact ih hc (by rwa [List.getLast?_cons_cons] at hlast)

theorem visitLoop_chain : ∀ {p : Option Nat} {as : List Nat} {xs : List T} (fuel : Nat), h.Chain p as xs → as.length < fuel →
    h.visitLoop none fuel p = some xs
  | _, _, _, 0, _, hlt => absurd hlt (Nat.not_lt_zero _)
  | _, [], [], fuel + 1, hnull, _ => if_pos hnull
  | _, a :: as, x :: xs, fuel + 1, ⟨hp, n, hn, hitem, hc⟩, hlt => by
    have ih := visitLoop_chain fuel hc (Nat.lt_of_succ_lt_succ hlt)
    rw [hp, visitLoop, if_neg (Option.some_ne_none a)]
    simp only [Option.bind_eq_bind, Option.bind_some, hn, ih, hitem]
    rfl

theorem indexLoop_chain (i : Int) : ∀ {p : Option Nat} {as : List Nat} {xs : List T} (fuel : Nat) (idx : Int),
    h.Chain p as xs →
    as.length < fuel → h.indexLoop none i fuel idx p = some (if idx ≤ i then as[(i - idx).toNat]? else none)
  | _, _, _, 0, _, _, hlt => absurd hlt (Nat.not_lt_zero _)
  | _, [], [], fuel + 1, idx, hnull, _ => by
    obtain rfl : _ = none := hnull
    simp [indexLoop]
  | _, a :: as, x :: xs, fuel + 1, idx, ⟨hp, n, hn, _, hc⟩, hlt => by
    have ih := indexLoop_chain i fuel (idx + 1) hc (Nat.lt_of_succ_lt_succ hlt)
    rw [hp, indexLoop, if_neg (Option.some_ne_none a)]
    by_cases heq : idx = i
    · rw [if_pos heq, if_pos heq.le, heq, Int.sub_self]
      rfl
    · rw [if_neg heq]
      simp only [Option.bind_eq_bind, Option.bind_some, hn, ih, Option.some.injEq]
      by_cases hle : idx ≤ i
      · have hpos : (i - idx).toNat = (i - (idx + 1)).toNat + 1 := by omega
        rw [if_pos hle, if_pos (by omega), hpos, List.getElem?_cons_succ]
      · rw [if_neg hle, if_neg (by omega)]

/-- Items by address. -/
theorem Chain.getElem? : ∀ {p : Option Nat} {as : List Nat} {xs : List T}, h.Chain p as xs → ∀ i : Nat,
    as[i]?.bind (fun a => (h.node a).map Node.item) = xs[i]?
  | _, [], [], _, _ => by simp
  | _, _ :: _, _ :: _, ⟨_, n, hn, hitem, hc⟩, i => by
    cases i with
    | zero => simp [hn, hitem]
    | succ i => simpa using hc.getElem? i

theorem visit_chain {a : Nat} {x : T} (hc : h.Chain p (a :: as) (x :: xs)) {fuel : Nat} (hfuel : as.length + 1 < fuel) :
    h.visit fuel p = some (x :: xs) := by
  rw [visit, endOf_chain hc (Nat.lt_of_succ_lt hfuel)]
  exact visitLoop_chain fuel hc hfuel

theorem index_chain {a : Nat} {x : T} (hc : h.Chain p (a :: as) (x :: xs)) {fuel : Nat} (hfuel : as.length + 1 < fuel)
    (i : Int) :
    h.index fuel p i = if 0 ≤ i then (x :: xs)[i.toNat]? else none := by
  rw [index, endOf_chain hc (Nat.lt_of_succ_lt hfuel)]
  simp only [Option.bind_eq_bind, Option.bind_some, indexLoop_chain i fuel 0 hc hfuel, Int.sub_zero]
  by_cases hi : 0 ≤ i
  · rw [if_pos hi, if_pos hi, ← hc.getElem? i.toNat]
    cases (a :: as)[i.toNat]? with
    | none => rfl
    | some b => cases hb : h.node b <;> simp [hb]
  · rw [if_neg hi, if_neg hi]
    rfl

end Heap
end LinkedList
end Sql
