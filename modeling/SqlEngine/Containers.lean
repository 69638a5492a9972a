import SqlEngine.LinkedList
import SqlEngine.Simulation
/-!
# Containers — queues and stacks are lists

All queues and stacks have their nodes in one heap.  After every run of their operations they hold what lists hold and
answer what lists answer; and every node that is not freed belongs to one of them (`Stands`).  Where the lists cannot take
a step, the source's is undefined.  Sizes are an `int` in the source: no container here is meant to hold 2^31 items.
-/
namespace Sql
namespace LinkedList

open Simulation Heap

/-- Fewer than 2^31 items: beyond, the `int` would overflow. -/
structure Queue where
  front : Option Nat
  rear : Option Nat
  size : Nat

/-- Fewer than 2^31 items, too. -/
structure Stack where
  top : Option Nat
  size : Nat

namespace Queue
variable {T : Type} (h : Heap T) (fuel : Nat) (q : Queue)

def new : Queue := ⟨none, none, 0⟩

def isEmpty : Bool := q.front.isNone || q.rear.isNone

def push (item : T) : Option (Queue × Heap T) :=
  if q.isEmpty then do
    let (p, h) ← h.insertHead q.front item
    pure (⟨some p, some p, q.size + 1⟩, h)
  else do
    let last ← h.lastNode fuel q.front
    let (p, front, h) ← h.insertAfter fuel q.front last item
    pure (⟨front, some p, q.size + 1⟩, h)

/-- The rear is left as it is, also when its node is deleted. -/
def pop : Option (T × Queue × Heap T) := do
  let (item, front, h) ← h.deleteNode fuel q.front q.front
  pure (item, { q with front := front, size := q.size - 1 }, h)

/-- `clear`, and the destructor. -/
def clear : Option (Queue × Heap T) := do
  let h ← h.clearList fuel q.front
  pure (new, h)

/-- The copy constructor. -/
def copy : Option (Queue × Heap T) := do
  let (front, rear, h) ← h.copyInto fuel none q.front
  pure (⟨front, rear, q.size⟩, h)

/-- `operator=`, of two queues. -/
def assign (rhs : Queue) : Option (Queue × Heap T) := do
  let h ← h.clearList fuel q.front
  rhs.copy h fuel

def frontItem : Option T := do
  let n ← h.node (← q.front)
  pure n.item

def back : Option T := do
  let n ← h.node (← q.rear)
  pure n.item

end Queue

namespace Stack
variable {T : Type} (h : Heap T) (fuel : Nat) (s : Stack)

def new : Stack := ⟨none, 0⟩

def isEmpty : Bool := s.top.isNone

def push (item : T) : Option (Stack × Heap T) := do
  let (p, h) ← h.insertHead s.top item
  pure (⟨some p, s.size + 1⟩, h)

def pop : Option (T × Stack × Heap T) := do
  let (item, top, h) ← h.deleteNode fuel s.top s.top
  pure (item, ⟨top, s.size - 1⟩, h)

/-- `clear`, and the destructor. -/
def clear : Option (Stack × Heap T) := do
  let h ← h.clearList fuel s.top
  pure (new, h)

/-- The copy constructor. -/
def copy : Option (Stack × Heap T) := do
  let (top, h) ← h.copyList fuel s.top
  pure (⟨top, s.size⟩, h)

/-- `operator=`, of two stacks. -/
def assign (rhs : Stack) : Option (Stack × Heap T) := do
  let h ← h.clearList fuel s.top
  rhs.copy h fuel

/-- The default item, if there is none. -/
def topItem [Inhabited T] : Option T :=
  if s.isEmpty then some default else do
    let n ← h.node (← s.top)
    pure n.item

end Stack

/-! ## The operations -/

inductive Container where
  | queue (q : Queue)
  | stack (s : Stack)
  | gone

/-- An operation on one container. -/
inductive Call (T : Type) where
  | push (item : T)
  | pop
  | clear
  | destroy
  | size
  | isEmpty
  | front
  | back
  | visit
  | index (i : Int)

inductive Answer (T : Type) where
  | nothing
  | made (i : Nat)
  | item (x : T)
  | items (xs : List T)
  | size (n : Nat)
  | empty (b : Bool)

/-- Where a container has no such operation, or is destroyed, there is no step. -/
def Container.step {T : Type} [Inhabited T] (h : Heap T) (fuel : Nat) : Container → Call T →
    Option (Answer T × Container × Heap T)
  | .queue q, .push item => (q.push h fuel item).map (fun r => (.nothing, .queue r.1, r.2))
  | .queue q, .pop => (q.pop h fuel).map (fun r => (.item r.1, .queue r.2.1, r.2.2))
  | .queue q, .clear => (q.clear h fuel).map (fun r => (.nothing, .queue r.1, r.2))
  | .queue q, .destroy => (q.clear h fuel).map (fun r => (.nothing, .gone, r.2))
  | .queue q, .size => some (.size q.size, .queue q, h)
  | .queue q, .isEmpty => some (.empty q.isEmpty, .queue q, h)
  | .queue q, .front => (q.frontItem h).map (fun x => (.item x, .queue q, h))
  | .queue q, .back => (q.back h).map (fun x => (.item x, .queue q, h))
  | .queue q, .visit => (h.visit fuel q.front).map (fun xs => (.items xs, .queue q, h))
  | .queue q, .index i => (h.index fuel q.front i).map (fun x => (.item x, .queue q, h))
  | .stack s, .push item => (s.push h item).map (fun r => (.nothing, .stack r.1, r.2))
  | .stack s, .pop => (s.pop h fuel).map (fun r => (.item r.1, .stack r.2.1, r.2.2))
  | .stack s, .clear => (s.clear h fuel).map (fun r => (.nothing, .stack r.1, r.2))
  | .stack s, .destroy => (s.clear h fuel).map (fun r => (.nothing, .gone, r.2))
  | .stack s, .size => some (.size s.size, .stack s, h)
  | .stack s, .isEmpty => some (.empty s.isEmpty, .stack s, h)
  | .stack s, .front => (s.topItem h).map (fun x => (.item x, .stack s, h))
  | .stack s, .visit => (h.visit fuel s.top).map (fun xs => (.items xs, .stack s, h))
  | .stack _, .back | .stack _, .index _ => none
  | .gone, _ => none

structure Containers (T : Type) where
  heap : Heap T
  objects : List Container

inductive Op (T : Type) where
  | queue
  | stack
  | call (i : Nat) (call : Call T)
  | copy (source : Nat)
  | assign (i source : Nat)

def Containers.new {T : Type} : Containers T := ⟨⟨0, fun _ => none⟩, []⟩

/-- The bound on the steps of the loops: no list has more nodes. -/
def Containers.step {T : Type} [Inhabited T] (c : Containers T) : Op T → Option (Answer T × Containers T)
  | .queue => some (.made c.objects.length, ⟨c.heap, c.objects ++ [.queue .new]⟩)
  | .stack => some (.made c.objects.length, ⟨c.heap, c.objects ++ [.stack .new]⟩)
  | .call i call => do
    let o ← c.objects[i]?
    let (ans, o, h) ← o.step c.heap (c.heap.fresh + 2) call
    pure (ans, ⟨h, c.objects.set i o⟩)
  | .copy source => do
    match ← c.objects[source]? with
    | .queue q =>
      let (q, h) ← q.copy c.heap (c.heap.fresh + 2)
      pure (.made c.objects.length, ⟨h, c.objects ++ [.queue q]⟩)
    | .stack s =>
      let (s, h) ← s.copy c.heap (c.heap.fresh + 2)
      pure (.made c.objects.length, ⟨h, c.objects ++ [.stack s]⟩)
    | .gone => none
  | .assign i source => do
    let o ← c.objects[i]?
    let rhs ← c.objects[source]?
    match o, rhs with
    | .queue q, .queue rhs => if i = source then pure (.nothing, c) else
      let (q, h) ← q.assign c.heap (c.heap.fresh + 2) rhs
      pure (.nothing, ⟨h, c.objects.set i (.queue q)⟩)
    | .stack s, .stack rhs => if i = source then pure (.nothing, c) else
      let (s, h) ← s.assign c.heap (c.heap.fresh + 2) rhs
      pure (.nothing, ⟨h, c.objects.set i (.stack s)⟩)
    | _, _ => none

/-! ## Lists -/

/-- What a container holds: a queue from its front, a stack from its top. -/
inductive Held (T : Type) where
  | queue (xs : List T)
  | stack (xs : List T)
  | gone

def Held.call {T : Type} [Inhabited T] : Held T → Call T → Option (Answer T × Held T)
  | .queue xs, .push item => some (.nothing, .queue (xs ++ [item]))
  | .stack xs, .push item => some (.nothing, .stack (item :: xs))
  | .queue (x :: xs), .pop => some (.item x, .queue xs)
  | .stack (x :: xs), .pop => some (.item x, .stack xs)
  | .queue _, .clear => some (.nothing, .queue [])
  | .stack _, .clear => some (.nothing, .stack [])
  | .queue _, .destroy | .stack _, .destroy => some (.nothing, .gone)
  | .queue xs, .size => some (.size xs.length, .queue xs)
  | .stack xs, .size => some (.size xs.length, .stack xs)
  | .queue xs, .isEmpty => some (.empty xs.isEmpty, .queue xs)
  | .stack xs, .isEmpty => some (.empty xs.isEmpty, .stack xs)
  | .queue xs, .front => xs.head?.map (fun x => (.item x, .queue xs))
  | .stack xs, .front => some (.item (xs.headD default), .stack xs)
  | .queue xs, .back => xs.getLast?.map (fun x => (.item x, .queue xs))
  | .queue (x :: xs), .visit => some (.items (x :: xs), .queue (x :: xs))
  | .stack (x :: xs), .visit => some (.items (x :: xs), .stack (x :: xs))
  | .queue xs, .index i => if 0 ≤ i then xs[i.toNat]?.map (fun x => (.item x, .queue xs)) else none
  | _, _ => none

def Held.step {T : Type} [Inhabited T] (held : List (Held T)) : Op T → Option (Answer T × List (Held T))
  | .queue => some (.made held.length, held ++ [.queue []])
  | .stack => some (.made held.length, held ++ [.stack []])
  | .call i call => do
    let g ← held[i]?
    let (ans, g) ← g.call call
    pure (ans, held.set i g)
  | .copy source => do
    match ← held[source]? with
    | .gone => none
    | g => pure (.made held.length, held ++ [g])
  | .assign i source => do
    let g ← held[i]?
    let rhs ← held[source]?
    match g, rhs with
    | .queue _, .queue xs => pure (.nothing, held.set i (.queue xs))
    | .stack _, .stack xs => pure (.nothing, held.set i (.stack xs))
    | _, _ => none

/-! ## What containers hold -/

variable {T : Type}

/-- The rear is the last node, or an emptied queue still has the freed one. -/
def Container.Has (h : Heap T) : Container → List Nat → Held T → Prop
  | .queue q, as, .queue xs => h.Owns q.front as xs ∧ q.size = xs.length ∧
      (q.rear = as.getLast? ∨ as = [] ∧ ∃ r, q.rear = some r ∧ r < h.fresh ∧ h.node r = none)
  | .stack s, as, .stack xs => h.Owns s.top as xs ∧ s.size = xs.length
  | .gone, as, .gone => as = []
  | _, _, _ => False

/-- **No node is shared, and none is leaked**: `own i` are the nodes of the container `i`. -/
structure Owned (c : Containers T) (held : List (Held T)) (own : Nat → List Nat) : Prop where
  length_eq : c.objects.length = held.length
  has : ∀ i (o : Container) g, c.objects[i]? = some o → held[i]? = some g → o.Has c.heap (own i) g
  disjoint : ∀ i j, i ≠ j → ∀ a ∈ own i, a ∉ own j
  live : ∀ a, (c.heap.node a).isSome → ∃ i < c.objects.length, a ∈ own i
  rest : ∀ i, c.objects.length ≤ i → own i = []

def Stands (c : Containers T) (held : List (Held T)) : Prop := ∃ own, Owned c held own

variable {h h' : Heap T} {c : Containers T} {held : List (Held T)} {own : Nat → List Nat}

theorem Container.Has.chain : ∀ {o : Container} {as : List Nat} {g : Held T}, o.Has h as g →
    as = [] ∨ ∃ p xs, h.Owns p as xs
  | .queue _, _, .queue _, ⟨ho, _⟩ => Or.inr ⟨_, _, ho⟩
  | .stack _, _, .stack _, ⟨ho, _⟩ => Or.inr ⟨_, _, ho⟩
  | .gone, _, .gone, hnil => Or.inl hnil

/-- A container's nodes are there. -/
theorem Container.Has.node {o : Container} {as : List Nat} {g : Held T} (hhas : o.Has h as g) {a : Nat} (ha : a ∈ as) :
    a < h.fresh ∧ ∃ n, h.node a = some n := by
  rcases hhas.chain with rfl | ⟨p, xs, ho⟩
  · exact absurd ha List.not_mem_nil
  · exact ⟨ho.lt a ha, ho.chain.nodes a ha⟩

theorem Container.Has.nodup {o : Container} {as : List Nat} {g : Held T} (hhas : o.Has h as g) : as.Nodup := by
  rcases hhas.chain with rfl | ⟨p, xs, ho⟩
  · exact List.nodup_nil
  · exact ho.nodup

theorem Container.Has.length_le {o : Container} {as : List Nat} {g : Held T} (hhas : o.Has h as g) :
    as.length ≤ h.fresh := by
  have hsub : as ⊆ List.range h.fresh := fun a ha => List.mem_range.2 (hhas.node ha).1
  simpa using (List.subperm_of_subset hhas.nodup hsub).length_le

/-- The bound on the steps is enough. -/
theorem Container.Has.bound {o : Container} {as : List Nat} {g : Held T} (hhas : o.Has h as g) :
    as.length + 1 < h.fresh + 2 :=
  Nat.lt_succ_of_le (Nat.succ_le_succ hhas.length_le)

/-- A container that does not take part. -/
theorem Container.Has.frame {bs bs' : List Nat} (hm : h.Moves h' bs bs') (hbs : ∀ b ∈ bs, ∃ n, h.node b = some n) :
    ∀ {o : Container} {as : List Nat} {g : Held T}, o.Has h as g → (∀ a ∈ as, a ∉ bs) → o.Has h' as g
  | .queue q, as, .queue xs, ⟨ho, hsize, hrear⟩, hdisjoint => by
    refine ⟨ho.frame hm hdisjoint, hsize, hrear.imp_right ?_⟩
    rintro ⟨hnil, r, hr, hlt, hfreed⟩
    have hr' : r ∉ bs := fun hmem => by
      obtain ⟨n, hn⟩ := hbs r hmem
      cases hfreed.symm.trans hn
    exact ⟨hnil, r, hr, hlt.trans_le hm.fresh_le, (hm.frame r hlt hr').trans hfreed⟩
  | .stack s, as, .stack xs, ⟨ho, hsize⟩, hdisjoint => ⟨ho.frame hm hdisjoint, hsize⟩
  | .gone, _, .gone, hnil, _ => hnil

theorem Owned.get (ho : Owned c held own) {i : Nat} {o : Container} (hget : c.objects[i]? = some o) :
    ∃ g, held[i]? = some g ∧ o.Has c.heap (own i) g := by
  have hlt : i < held.length := ho.length_eq ▸ (List.getElem?_eq_some_iff.1 hget).1
  exact ⟨held[i], List.getElem?_eq_getElem hlt, ho.has i o _ hget (List.getElem?_eq_getElem hlt)⟩

theorem Owned.none (ho : Owned c held own) {i : Nat} (hget : c.objects[i]? = none) : held[i]? = none := by
  rw [List.getElem?_eq_none_iff, ← ho.length_eq]
  exact List.getElem?_eq_none_iff.1 hget

theorem Owned.node (ho : Owned c held own) {i a : Nat} (ha : a ∈ own i) :
    a < c.heap.fresh ∧ ∃ n, c.heap.node a = some n := by
  by_cases hlt : i < c.objects.length
  · obtain ⟨g, -, hhas⟩ := ho.get (List.getElem?_eq_getElem hlt)
    exact hhas.node ha
  · rw [ho.rest i (Nat.not_lt.1 hlt)] at ha
    exact absurd ha List.not_mem_nil

/-- **One container changes**, or is new; the others have nothing to do with it. -/
theorem Owned.change (ho : Owned c held own) {i : Nat} {o : Container} {g : Held T} {as' : List Nat}
    {objects' : List Container}
    {held' : List (Held T)} (hobjects : ∀ j, objects'[j]? = if j = i then some o else c.objects[j]?)
    (hheld : ∀ j, held'[j]? = if j = i then some g else held[j]?) (hlength : objects'.length = held'.length)
    (hhas : o.Has h' as' g) (hm : c.heap.Moves h' (own i) as') : Stands ⟨h', objects'⟩ held' := by
  have hself : Function.update own i as' i = as' := Function.update_self ..
  have hother : ∀ j, j ≠ i → Function.update own i as' j = own j := fun j hj => Function.update_of_ne hj _ _
  have hapart : ∀ j, j ≠ i → ∀ a ∈ as', a ∉ own j := fun j hj a ha hmem =>
    (hm.mem a ha).elim (fun hold => ho.disjoint i j hj.symm a hold hmem)
      (fun hle => absurd (ho.node hmem).1 (Nat.not_lt.2 hle))
  have hlt : ∀ j, j < objects'.length ↔ j = i ∨ j < c.objects.length := fun j => by
    have hsome : ∀ l : List Container, j < l.length ↔ l[j]?.isSome := fun l => by simp
    rw [hsome, hsome, hobjects j]
    by_cases hj : j = i <;> simp [hj]
  refine ⟨Function.update own i as', hlength, fun j o' g' ho' hg' => ?_, fun j k hjk a ha => ?_, fun a ha => ?_,
    fun j hj => ?_⟩
  · rw [hobjects] at ho'
    rw [hheld] at hg'
    by_cases hj : j = i
    · rw [if_pos hj] at ho' hg'
      cases ho'
      cases hg'
      rw [hj, hself]
      exact hhas
    · rw [if_neg hj] at ho' hg'
      rw [hother j hj]
      exact (ho.has j o' g' ho' hg').frame hm (fun b hb => (ho.node hb).2) (ho.disjoint j i hj)
  · by_cases hj : j = i
    · rw [hj, hself] at ha
      have hk : k ≠ i := fun heq => hjk (hj.trans heq.symm)
      rw [hother k hk]
      exact hapart k hk a ha
    · rw [hother j hj] at ha
      by_cases hk : k = i
      · rw [hk, hself]
        exact fun hmem => hapart j hj a hmem ha
      · rw [hother k hk]
        exact ho.disjoint j k hjk a ha
  · rcases hm.live a ha with hmem | ⟨hlive, hnot⟩
    · exact ⟨i, (hlt i).2 (Or.inl rfl), hself.symm ▸ hmem⟩
    · obtain ⟨j, hj, hmem⟩ := ho.live a hlive
      have hne : j ≠ i := fun heq => hnot (heq ▸ hmem)
      exact ⟨j, (hlt j).2 (Or.inr hj), (hother j hne).symm ▸ hmem⟩
  · have hnot := mt (hlt j).2 (Nat.not_lt.2 hj)
    rw [not_or] at hnot
    rw [hother j hnot.1]
    exact ho.rest j (Nat.not_lt.1 hnot.2)

/-- A new container. -/
theorem Owned.append (ho : Owned c held own) {o : Container} {g : Held T} {as' : List Nat} (hhas : o.Has h' as' g)
    (hm : c.heap.Moves h' [] as') : Stands ⟨h', c.objects ++ [o]⟩ (held ++ [g]) := by
  have hlast : ∀ {A : Type} (l : List A) (x : A) (j : Nat), (l ++ [x])[j]? = if j = l.length then some x else l[j]? := by
    intro A l x j
    rw [List.getElem?_append]
    rcases Nat.lt_trichotomy j l.length with hj | hj | hj
    · rw [if_pos hj, if_neg hj.ne]
    · simp [hj]
    · rw [if_neg (Nat.lt_asymm hj), if_neg hj.ne', List.getElem?_eq_none hj.le, List.getElem?_eq_none]
      exact Nat.sub_pos_of_lt hj
  rw [← ho.rest c.objects.length (le_refl _)] at hm
  refine ho.change (hlast c.objects o) (fun j => ?_) ?_ hhas hm
  · rw [hlast held g j, ho.length_eq]
  · rw [List.length_append, List.length_append, ho.length_eq]
    rfl

/-- A container that is there. -/
theorem Owned.set (ho : Owned c held own) {i : Nat} (hi : i < c.objects.length) {o : Container} {g : Held T} {as' : List Nat}
    (hhas : o.Has h' as' g) (hm : c.heap.Moves h' (own i) as') : Stands ⟨h', c.objects.set i o⟩ (held.set i g) := by
  have hset : ∀ {A : Type} (l : List A) (x : A), i < l.length → ∀ j, (l.set i x)[j]? = if j = i then some x else l[j]? := by
    intro A l x hlt j
    rw [List.getElem?_set]
    by_cases hj : i = j
    · rw [if_pos hj, if_pos hlt, if_pos hj.symm]
    · rw [if_neg hj, if_neg (Ne.symm hj)]
  refine ho.change (hset c.objects o hi) (hset held g (ho.length_eq ▸ hi)) ?_ hhas hm
  rw [List.length_set, List.length_set, ho.length_eq]

theorem Owned.again (ho : Owned c held own) {i : Nat} {g : Held T} (hget : held[i]? = some g) : Stands c (held.set i g) := by
  obtain ⟨hlt, rfl⟩ := List.getElem?_eq_some_iff.1 hget
  rw [List.set_getElem_self]
  exact ⟨own, ho⟩

/-- Where all containers are destroyed, all nodes are freed. -/
theorem Stands.freed (h : Stands c held) (hgone : ∀ g ∈ held, g = .gone) (a : Nat) : c.heap.node a = none := by
  obtain ⟨own, ho⟩ := h
  refine Option.not_isSome_iff_eq_none.1 (fun hlive => ?_)
  obtain ⟨i, hi, ha⟩ := ho.live a hlive
  obtain ⟨g, hg, hhas⟩ := ho.get (List.getElem?_eq_getElem hi)
  obtain rfl := hgone g (List.mem_of_getElem? hg)
  have hnil : own i = [] := match c.objects[i], hhas with
    | .gone, hnil => hnil
  rw [hnil] at ha
  cases ha

theorem stands_new : Stands (Containers.new : Containers T) [] :=
  ⟨fun _ => [], rfl, fun _ _ _ hget => (nomatch hget), fun _ _ _ _ ha => absurd ha List.not_mem_nil,
    fun _ hlive => absurd hlive Bool.false_ne_true, fun _ _ => rfl⟩

/-! ## Steps -/

/-- What an operation makes of a container and its nodes. -/
def Turns (h : Heap T) (as : List Nat) (r : Container × Heap T) (g : Held T) : Prop :=
  ∃ as', r.1.Has r.2 as' g ∧ h.Moves r.2 as as'

/-- A container that is only read. -/
theorem turns_read {as : List Nat} {o : Container} {g : Held T} (hhas : o.Has h as g) : Turns h as (o, h) g :=
  ⟨as, hhas, .refl h as⟩

theorem empty_queue (h : Heap T) : Container.Has h (.queue .new) [] (.queue []) :=
  ⟨⟨rfl, List.nodup_nil, fun _ ha => absurd ha List.not_mem_nil⟩, rfl, Or.inl rfl⟩

theorem empty_stack (h : Heap T) : Container.Has h (.stack .new) [] (.stack []) :=
  ⟨⟨rfl, List.nodup_nil, fun _ ha => absurd ha List.not_mem_nil⟩, rfl⟩

section
variable {fuel : Nat} {as : List Nat} {xs : List T} {q : Queue} {s : Stack}

theorem queue_isEmpty (hhas : (Container.queue q).Has h as (.queue xs)) : q.isEmpty = xs.isEmpty := by
  obtain ⟨ho, -, hrear⟩ := hhas
  have hfront := ho.chain.head
  match as, xs, ho.chain with
  | [], [], _ => simp [Queue.isEmpty, hfront]
  | a :: as, x :: xs, _ =>
    have hrear : q.rear = (a :: as).getLast? := hrear.resolve_right (fun hd => List.cons_ne_nil a as hd.1)
    simp [Queue.isEmpty, hfront, hrear]

theorem stack_isEmpty (hhas : (Container.stack s).Has h as (.stack xs)) : s.isEmpty = xs.isEmpty := by
  have htop := hhas.1.chain.head
  match as, xs, hhas.1.chain with
  | [], [], _ => simp [Stack.isEmpty, htop]
  | a :: as, x :: xs, _ => simp [Stack.isEmpty, htop]

/-- **`push`** puts the item behind the last one. -/
theorem queue_push (hhas : (Container.queue q).Has h as (.queue xs)) (hfuel : as.length ≤ fuel) (x : T) :
    ∃ q' h', q.push h fuel x = some (q', h') ∧ Turns h as (.queue q', h') (.queue (xs ++ [x])) := by
  have hempty := queue_isEmpty hhas
  obtain ⟨ho, hsize, hrear⟩ := hhas
  cases hlast : as.getLast? with
  | none =>
    obtain rfl := List.getLast?_eq_none_iff.1 hlast
    obtain rfl : xs = [] := List.length_eq_zero_iff.1 ho.chain.length.symm
    obtain ⟨h', hinsert, howns, hmoves⟩ := insertHead_spec ho x
    refine ⟨⟨some h.fresh, some h.fresh, q.size + 1⟩, h', ?_, _, ⟨howns, congrArg Nat.succ hsize, Or.inl rfl⟩, hmoves⟩
    rw [Queue.push, hempty, List.isEmpty_nil, if_pos rfl, hinsert]
    rfl
  | some last =>
    have hne : as ≠ [] := fun hnil => by
      rw [hnil] at hlast
      cases hlast
    have hxs : xs.isEmpty = false := by
      rw [List.isEmpty_eq_false_iff, ← List.length_pos_iff, ← ho.chain.length]
      exact List.length_pos_iff.2 hne
    obtain ⟨h', hinsert, howns, hmoves⟩ := insertAfter_spec ho hlast hfuel x
    refine ⟨⟨q.front, some h.fresh, q.size + 1⟩, h', ?_, _, ⟨howns, ?_, Or.inl List.getLast?_concat.symm⟩, hmoves⟩
    · rw [Queue.push, hempty, hxs, if_neg Bool.false_ne_true, lastNode_chain fuel ho.chain hfuel, hlast]
      simp only [Option.bind_eq_bind, Option.bind_some, hinsert]
      rfl
    · rw [List.length_append, ← hsize]
      rfl

theorem queue_copy {fuel : Nat} (hhas : (Container.queue q).Has h as (.queue xs)) (hfuel : as.length ≤ fuel) :
    ∃ q' h', q.copy h fuel = some (q', h') ∧ Turns h [] (.queue q', h') (.queue xs) := by
  obtain ⟨ho, hsize, -⟩ := hhas
  obtain ⟨as', h', hcopy, howns, hmoves⟩ := copyInto_spec ho hfuel
  refine ⟨⟨as'.head?, as'.getLast?, q.size⟩, h', ?_, as', ⟨howns, hsize, Or.inl rfl⟩, hmoves⟩
  rw [Queue.copy, hcopy]
  rfl

theorem stack_copy {fuel : Nat} (hhas : (Container.stack s).Has h as (.stack xs)) (hfuel : as.length ≤ fuel) :
    ∃ s' h', s.copy h fuel = some (s', h') ∧ Turns h [] (.stack s', h') (.stack xs) := by
  obtain ⟨ho, hsize⟩ := hhas
  obtain ⟨as', h', hcopy, howns, hmoves⟩ := copyList_spec ho hfuel
  refine ⟨⟨as'.head?, s.size⟩, h', ?_, as', ⟨howns, hsize⟩, hmoves⟩
  rw [Stack.copy, hcopy]
  rfl

/-- The target is cleared, and the source is as it was. -/
theorem queue_assign {fuel : Nat} {rhs : Queue} {bs : List Nat} {ys : List T}
    (hhas : (Container.queue q).Has h as (.queue xs))
    (hrhs : (Container.queue rhs).Has h bs (.queue ys)) (hdisjoint : ∀ b ∈ bs, b ∉ as) (hfuel : as.length ≤ fuel)
    (hfuel' : bs.length ≤ fuel) :
    ∃ q' h', q.assign h fuel rhs = some (q', h') ∧ Turns h as (.queue q', h') (.queue ys) := by
  obtain ⟨h1, hclear, hmoves⟩ := clearList_spec fuel hhas.1 hfuel
  have hrhs' := hrhs.frame hmoves (fun a ha => (hhas.node ha).2) hdisjoint
  obtain ⟨q', h', hcopy, as', hhas', hmoves'⟩ := queue_copy hrhs' hfuel'
  refine ⟨q', h', ?_, as', hhas', hmoves.trans hmoves'⟩
  rw [Queue.assign, hclear]
  exact hcopy

theorem stack_assign {fuel : Nat} {rhs : Stack} {bs : List Nat} {ys : List T}
    (hhas : (Container.stack s).Has h as (.stack xs))
    (hrhs : (Container.stack rhs).Has h bs (.stack ys)) (hdisjoint : ∀ b ∈ bs, b ∉ as) (hfuel : as.length ≤ fuel)
    (hfuel' : bs.length ≤ fuel) :
    ∃ s' h', s.assign h fuel rhs = some (s', h') ∧ Turns h as (.stack s', h') (.stack ys) := by
  obtain ⟨h1, hclear, hmoves⟩ := clearList_spec fuel hhas.1 hfuel
  have hrhs' := hrhs.frame hmoves (fun a ha => (hhas.node ha).2) hdisjoint
  obtain ⟨s', h', hcopy, as', hhas', hmoves'⟩ := stack_copy hrhs' hfuel'
  refine ⟨s', h', ?_, as', hhas', hmoves.trans hmoves'⟩
  rw [Stack.assign, hclear]
  exact hcopy

/-- A freed node, by what happened to the list. -/
theorem freed_of {a : Nat} (hm : h.Moves h' (a :: as) as) (hnot : a ∉ as) : h'.node a = none :=
  Option.not_isSome_iff_eq_none.1 (fun hlive => (hm.live a hlive).elim hnot (fun hold => hold.2 List.mem_cons_self))

theorem back_item (hhas : (Container.queue q).Has h as (.queue xs)) : q.back h = xs.getLast? := by
  obtain ⟨ho, -, hrear⟩ := hhas
  rcases hrear with hlast | ⟨rfl, r, hr, -, hfreed⟩
  · rw [List.getLast?_eq_getElem?, ← ho.chain.length, ← ho.chain.getElem?, ← List.getLast?_eq_getElem?, Queue.back, hlast]
    cases as.getLast? with
    | none => rfl
    | some a => cases ha : h.node a <;> simp [ha]
  · obtain rfl : xs = [] := List.length_eq_zero_iff.1 ho.chain.length.symm
    rw [Queue.back, hr]
    simp [hfreed]

theorem front_item {p : Option Nat} (ho : h.Owns p as xs) : (do let n ← h.node (← p); pure n.item) = xs.head? := by
  rw [ho.chain.head, List.head?_eq_getElem?, List.head?_eq_getElem?, ← ho.chain.getElem?]
  cases as[0]? with
  | none => rfl
  | some a => cases ha : h.node a <;> simp [ha]

theorem visit_items {p : Option Nat} (ho : h.Owns p as xs) (hfuel : as.length + 1 < fuel) :
    h.visit fuel p = if xs = [] then none else some xs := by
  match as, xs, ho.chain with
  | [], [], hc =>
    obtain rfl : p = none := hc
    cases fuel <;> rfl
  | a :: as, x :: xs, hc => exact (visit_chain hc (Nat.lt_of_succ_lt hfuel)).trans (if_neg (List.cons_ne_nil x xs)).symm

theorem index_items {p : Option Nat} (ho : h.Owns p as xs) (hfuel : as.length + 1 < fuel) (i : Int) :
    h.index fuel p i = if 0 ≤ i then xs[i.toNat]? else none := by
  match as, xs, ho.chain with
  | [], [], hc =>
    obtain rfl : p = none := hc
    cases fuel <;> simp [index, endOf, lastNode]
  | a :: as, x :: xs, hc => exact index_chain hc (Nat.lt_of_succ_lt hfuel) i

variable [Inhabited T]

/-- **`pop`** takes the first item; the rear of a queue that it empties is a freed node. -/
theorem queue_pop (hhas : (Container.queue q).Has h as (.queue xs)) (fuel : Nat) :
    Paired (Turns h as) ((Container.queue q).step h fuel .pop) ((Held.queue xs).call .pop) := by
  obtain ⟨ho, hsize, hrear⟩ := hhas
  match as, xs, ho with
  | [], [], ho =>
    rw [Container.step, Queue.pop, show q.front = none from ho.chain]
    exact .none
  | a :: as, x :: xs, ho =>
    obtain ⟨h', hdelete, howns, hmoves⟩ := deleteNode_spec ho fuel
    have hlast : q.rear = (a :: as).getLast? := hrear.resolve_right (fun hd => List.cons_ne_nil a as hd.1)
    have hsize' : q.size - 1 = xs.length := congrArg Nat.pred hsize
    rw [Container.step, Queue.pop, hdelete]
    refine .answered _ ⟨as, ⟨howns, hsize', ?_⟩, hmoves⟩
    cases as with
    | nil =>
      have hlt := (ho.lt a List.mem_cons_self).trans_le hmoves.fresh_le
      exact Or.inr ⟨rfl, a, hlast, hlt, freed_of hmoves List.not_mem_nil⟩
    | cons b as => exact Or.inl (hlast.trans List.getLast?_cons_cons)

theorem queue_call (hhas : (Container.queue q).Has h as (.queue xs)) (hfuel : as.length + 1 < fuel) (call : Call T) :
    Paired (Turns h as) ((Container.queue q).step h fuel call) ((Held.queue xs).call call) := by
  have hle : as.length ≤ fuel := (Nat.lt_of_succ_lt hfuel).le
  have hread := turns_read hhas
  cases call with
  | push x =>
    obtain ⟨q', h', hpush, hturns⟩ := queue_push hhas hle x
    rw [Container.step, hpush]
    exact .answered _ hturns
  | pop => exact queue_pop hhas fuel
  | clear =>
    obtain ⟨h', hclear, hmoves⟩ := clearList_spec fuel hhas.1 hle
    rw [Container.step, Queue.clear, hclear]
    exact .answered _ ⟨[], empty_queue h', hmoves⟩
  | destroy =>
    obtain ⟨h', hclear, hmoves⟩ := clearList_spec fuel hhas.1 hle
    rw [Container.step, Queue.clear, hclear]
    exact .answered _ ⟨[], rfl, hmoves⟩
  | size =>
    rw [Container.step, hhas.2.1]
    exact .answered _ hread
  | isEmpty =>
    rw [Container.step, queue_isEmpty hhas]
    exact .answered _ hread
  | front =>
    rw [Container.step, Queue.frontItem, front_item hhas.1, Held.call]
    cases xs.head? with
    | none => exact .none
    | some x => exact .answered _ hread
  | back =>
    rw [Container.step, back_item hhas, Held.call]
    cases xs.getLast? with
    | none => exact .none
    | some x => exact .answered _ hread
  | visit =>
    rw [Container.step, visit_items hhas.1 hfuel]
    cases xs with
    | nil => exact .none
    | cons x xs => exact .answered _ hread
  | index i =>
    rw [Container.step, index_items hhas.1 hfuel, Held.call]
    by_cases hi : 0 ≤ i
    · rw [if_pos hi, if_pos hi]
      cases xs[i.toNat]? with
      | none => exact .none
      | some x => exact .answered _ hread
    · rw [if_neg hi, if_neg hi]
      exact .none

theorem stack_call (hhas : (Container.stack s).Has h as (.stack xs)) (hfuel : as.length + 1 < fuel) (call : Call T) :
    Paired (Turns h as) ((Container.stack s).step h fuel call) ((Held.stack xs).call call) := by
  have hle : as.length ≤ fuel := (Nat.lt_of_succ_lt hfuel).le
  have hread := turns_read hhas
  obtain ⟨ho, hsize⟩ := hhas
  cases call with
  | push x =>
    obtain ⟨h', hinsert, howns, hmoves⟩ := insertHead_spec ho x
    rw [Container.step, Stack.push, hinsert]
    exact .answered _ ⟨_, ⟨howns, congrArg Nat.succ hsize⟩, hmoves⟩
  | pop =>
    match as, xs, ho with
    | [], [], ho =>
      rw [Container.step, Stack.pop, show s.top = none from ho.chain]
      exact .none
    | a :: as, x :: xs, ho =>
      obtain ⟨h', hdelete, howns, hmoves⟩ := deleteNode_spec ho fuel
      have hsize' : s.size - 1 = xs.length := congrArg Nat.pred hsize
      rw [Container.step, Stack.pop, hdelete]
      exact .answered _ ⟨as, ⟨howns, hsize'⟩, hmoves⟩
  | clear =>
    obtain ⟨h', hclear, hmoves⟩ := clearList_spec fuel ho hle
    rw [Container.step, Stack.clear, hclear]
    exact .answered _ ⟨[], empty_stack h', hmoves⟩
  | destroy =>
    obtain ⟨h', hclear, hmoves⟩ := clearList_spec fuel ho hle
    rw [Container.step, Stack.clear, hclear]
    exact .answered _ ⟨[], rfl, hmoves⟩
  | size =>
    rw [Container.step, hsize]
    exact .answered _ hread
  | isEmpty =>
    rw [Container.step, stack_isEmpty ⟨ho, hsize⟩]
    exact .answered _ hread
  | front =>
    rw [Container.step, Stack.topItem, stack_isEmpty ⟨ho, hsize⟩, front_item ho]
    cases xs with
    | nil => exact .answered _ hread
    | cons x xs => exact .answered _ hread
  | back => exact .none
  | visit =>
    rw [Container.step, visit_items ho hfuel]
    cases xs with
    | nil => exact .none
    | cons x xs => exact .answered _ hread
  | index i => exact .none

theorem container_call {o : Container} {g : Held T} (hhas : o.Has h as g) (hfuel : as.length + 1 < fuel) (call : Call T) :
    Paired (Turns h as) (o.step h fuel call) (g.call call) :=
  match o, g, hhas with
  | .queue _, .queue _, hhas => queue_call hhas hfuel call
  | .stack _, .stack _, hhas => stack_call hhas hfuel call
  | .gone, .gone, _ => by cases call <;> exact .none

end

/-! ## Runs -/

variable [Inhabited T]

theorem call_step (ho : Owned c held own) (i : Nat) (call : Call T) :
    Paired Stands (c.step (.call i call)) (Held.step held (.call i call)) := by
  simp only [Containers.step, Held.step, Option.bind_eq_bind]
  cases hget : c.objects[i]? with
  | none =>
    rw [ho.none hget]
    exact .none
  | some o =>
    obtain ⟨g, hg, hhas⟩ := ho.get hget
    rw [hg]
    refine (container_call hhas hhas.bound call).bind (fun ans r g' hturns => ?_)
    obtain ⟨as', hhas', hmoves⟩ := hturns
    exact .answered ans (ho.set (List.getElem?_eq_some_iff.1 hget).1 hhas' hmoves)

theorem copy_step (ho : Owned c held own) (source : Nat) :
    Paired Stands (c.step (.copy source)) (Held.step held (.copy source)) := by
  simp only [Containers.step, Held.step, Option.bind_eq_bind, ho.length_eq]
  cases hget : c.objects[source]? with
  | none =>
    rw [ho.none hget]
    exact .none
  | some o =>
    obtain ⟨g, hg, hhas⟩ := ho.get hget
    rw [hg]
    match o, g, hhas with
    | .queue q, .queue xs, hhas =>
      obtain ⟨q', h', hcopy, as', hhas', hmoves⟩ := queue_copy hhas (Nat.lt_of_succ_lt hhas.bound).le
      simp only [Option.bind_some, hcopy]
      exact .answered _ (ho.append hhas' hmoves)
    | .stack s, .stack xs, hhas =>
      obtain ⟨s', h', hcopy, as', hhas', hmoves⟩ := stack_copy hhas (Nat.lt_of_succ_lt hhas.bound).le
      simp only [Option.bind_some, hcopy]
      exact .answered _ (ho.append hhas' hmoves)
    | .gone, .gone, _ => exact .none

/-- A container that is assigned to itself stays as it is. -/
theorem assign_step (ho : Owned c held own) (i source : Nat) :
    Paired Stands (c.step (.assign i source)) (Held.step held (.assign i source)) := by
  simp only [Containers.step, Held.step, Option.bind_eq_bind]
  cases hget : c.objects[i]? with
  | none =>
    rw [ho.none hget]
    exact .none
  | some o =>
    obtain ⟨g, hg, hhas⟩ := ho.get hget
    rw [hg]
    simp only [Option.bind_some]
    cases hsource : c.objects[source]? with
    | none =>
      rw [ho.none hsource]
      exact .none
    | some rhs =>
      obtain ⟨g', hg', hrhs⟩ := ho.get hsource
      rw [hg']
      simp only [Option.bind_some]
      have hfuel := (Nat.lt_of_succ_lt hhas.bound).le
      have hfuel' := (Nat.lt_of_succ_lt hrhs.bound).le
      have hi := (List.getElem?_eq_some_iff.1 hget).1
      match o, rhs, g, g', hg', hhas, hrhs with
      | .queue q, .queue rhs, .queue xs, .queue ys, hg', hhas, hrhs =>
        by_cases heq : i = source
        · simp only [heq, if_true]
          exact .answered _ (ho.again hg')
        · obtain ⟨q', h', hassign, as', hhas', hmoves⟩ :=
            queue_assign hhas hrhs (ho.disjoint source i (Ne.symm heq)) hfuel hfuel'
          simp only [if_neg heq, hassign, Option.bind_some]
          exact .answered _ (ho.set hi hhas' hmoves)
      | .stack s, .stack rhs, .stack xs, .stack ys, hg', hhas, hrhs =>
        by_cases heq : i = source
        · simp only [heq, if_true]
          exact .answered _ (ho.again hg')
        · obtain ⟨s', h', hassign, as', hhas', hmoves⟩ :=
            stack_assign hhas hrhs (ho.disjoint source i (Ne.symm heq)) hfuel hfuel'
          simp only [if_neg heq, hassign, Option.bind_some]
          exact .answered _ (ho.set hi hhas' hmoves)
      | .queue _, .stack _, .queue _, .stack _, _, _, _ => exact .none
      | .stack _, .queue _, .stack _, .queue _, _, _, _ => exact .none
      | .gone, _, .gone, _, _, _, _ => exact .none
      | .queue _, .gone, .queue _, .gone, _, _, _ => exact .none
      | .stack _, .gone, .stack _, .gone, _, _, _ => exact .none

theorem containers_lockstep : Lockstep Stands (Containers.step : Containers T → _) Held.step := by
  rintro c held op ⟨own, ho⟩
  cases op with
  | queue =>
    simp only [Containers.step, Held.step, ho.length_eq]
    exact .answered _ (ho.append (empty_queue c.heap) (.refl _ _))
  | stack =>
    simp only [Containers.step, Held.step, ho.length_eq]
    exact .answered _ (ho.append (empty_stack c.heap) (.refl _ _))
  | call i call => exact call_step ho i call
  | copy source => exact copy_step ho source
  | assign i source => exact assign_step ho i source

/-- **Queues and stacks are lists**, in every run of their operations. -/
theorem containers_refine (ops : List (Op T)) :
    Paired Stands (runSteps Containers.step Containers.new ops) (runSteps Held.step [] ops) :=
  containers_lockstep.run ops stands_new

end LinkedList
end Sql
