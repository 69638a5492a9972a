import SqlEngine.Accepted
/-!
# Traversal — walks over untrusted page links end

The loop of `read_chain` and the recursion of `validate_index_node` as they run: a subscript checks nothing by itself
(`pageAt`), and nothing but the page links says when to stop.  Every iteration marks a page that was not marked, so the
number of pages bounds the iterations and the depth (`run_readChain`, `validateNode_eq`).  The walks of an insert have no
guard of their own; on an image that parses they need none (`insertRowPages_accepted`).
-/
namespace Sql
namespace Storage

open Wire BTree

/-! ## Page chains -/

/-- The locals of `read_chain`. -/
structure ChainLoop where
  current : Nat
  chain : Finset Nat
  owned : Finset Nat
  output : Bytes

/-- One iteration: the locals behind it, or the result. -/
def ChainLoop.step (pages : List Page) (expectedType : PageType) (loop : ChainLoop) :
    Except StorageError (ChainLoop ⊕ Bytes × Finset Nat) :=
  if loop.current = noPage then .ok (.inr (loop.output, loop.owned)) else do
  throwIf (loop.current ≥ pages.length) (.corruption ⟨"page chain points outside the file"⟩)
  throwIf (loop.current ∈ loop.chain) (.corruption ⟨"page chain contains a cycle"⟩)
  throwIf (loop.current ∈ loop.owned) (.corruption ⟨"page belongs to multiple structures"⟩)
  let page ← pageAt pages loop.current
  throwIf (page.type ≠ expectedType) (.corruption ⟨"page chain contains the wrong page type"⟩)
  pure (.inl ⟨page.next, insert loop.current loop.chain, insert loop.current loop.owned, loop.output ++ page.payload⟩)

/-- The loop, given up after `fuel` iterations. -/
def ChainLoop.run (pages : List Page) (expectedType : PageType) : Nat → ChainLoop → Except StorageError (Bytes × Finset Nat)
  | 0, _ => .error .diverges
  | fuel + 1, loop => do
    match ← loop.step pages expectedType with
    | .inl loop => run pages expectedType fuel loop
    | .inr result => pure result

theorem pageAt_some {pages : List Page} {id : Nat} {page : Page} (h : pages[id]? = some page) :
    pageAt pages id = .ok page := by
  rw [pageAt, h]

/-- One iteration of `readChain`, its checks one behind the other. -/
theorem readChain_eq (pages : List Page) (type : PageType) (current : Nat) (chain owned : Finset Nat) :
    readChain pages type current chain owned = (if current = noPage then .ok ([], owned) else
      match pages[current]? with
      | none => .error ⟨"page chain points outside the file"⟩
      | some page => do
        throwIf (current ∈ chain) ⟨"page chain contains a cycle"⟩
        throwIf (current ∈ owned) ⟨"page belongs to multiple structures"⟩
        throwIf (page.type ≠ type) ⟨"page chain contains the wrong page type"⟩
        let (rest, owned) ← readChain pages type page.next (insert current chain) (insert current owned)
        pure (page.payload ++ rest, owned)) := by
  conv => lhs; rw [readChain]
  by_cases hend : current = noPage
  · rw [if_pos hend, if_pos hend]
  rw [if_neg hend, if_neg hend]
  split
  · rename_i hp
    rw [hp]
  · rename_i page hp
    rw [hp]
    by_cases hc : current ∈ chain
    · simp [hc, throwIf, bind, Except.bind]
    by_cases ho : current ∈ owned
    · simp [hc, ho, throwIf, bind, Except.bind]
    by_cases ht : page.type = type
    · simp [hc, ho, ht, throwIf, bind, Except.bind]
    · simp [hc, ho, ht, throwIf, bind, Except.bind]

theorem throwIf_lift (c : Prop) [Decidable c] (e : Corruption) :
    throwIf c (.corruption e) = liftCorruption (throwIf c e) := by
  unfold throwIf
  by_cases h : c
  · rw [if_pos h, if_pos h]
    rfl
  · rw [if_neg h, if_neg h]
    rfl

theorem liftCorruption_bind {α β : Type} (x : Except Corruption α) (f : α → Except Corruption β) :
    liftCorruption (x >>= f) = liftCorruption x >>= fun a => liftCorruption (f a) := by
  cases x <;> rfl

/-- **The loop of `read_chain` ends**, inside the page vector and with what `readChain` returns: each iteration takes a
page off those the chain has not visited. -/
theorem run_readChain {pages : List Page} {type : PageType} : ∀ {fuel : Nat} {loop : ChainLoop},
    (Finset.range pages.length \ loop.chain).card < fuel → loop.run pages type fuel = liftCorruption (do
      let (rest, owned) ← readChain pages type loop.current loop.chain loop.owned
      pure (loop.output ++ rest, owned))
  | 0, _, h => absurd h (Nat.not_lt_zero _)
  | fuel + 1, ⟨current, chain, owned, output⟩, h => by
    rw [ChainLoop.run, ChainLoop.step, readChain_eq]
    by_cases hend : current = noPage
    · rw [if_pos hend, if_pos hend]
      simp [bind, Except.bind, pure, Except.pure, liftCorruption]
    rw [if_neg hend, if_neg hend]
    cases hp : pages[current]? with
    | none =>
      have hout : current ≥ pages.length := List.getElem?_eq_none_iff.1 hp
      simp [throwIf, hout, bind, Except.bind, liftCorruption]
    | some page =>
      have hlt := lt_of_getElem?_some hp
      rw [throwIf_neg (Nat.not_le.2 hlt), pageAt_some hp]
      by_cases hc : current ∈ chain
      · simp [throwIf, hc, bind, Except.bind, liftCorruption]
      by_cases ho : current ∈ owned
      · simp [throwIf, hc, ho, bind, Except.bind, liftCorruption]
      by_cases ht : page.type = type
      · have hmeasure := unvisited_lt hlt hc
        have ih := @run_readChain pages type fuel ⟨page.next, insert current chain, insert current owned,
          output ++ page.payload⟩ (Nat.lt_of_lt_of_le hmeasure (Nat.lt_succ_iff.1 h))
        simp only [throwIf, hc, ho, ht, ne_eq, not_true_eq_false, if_false, bind, Except.bind, pure, Except.pure] at ih ⊢
        rw [ih]
        cases readChain pages type page.next (insert current chain) (insert current owned) with
        | error c => rfl
        | ok r => simp [liftCorruption]
      · simp [throwIf, hc, ho, ht, bind, Except.bind, liftCorruption]

/-! ## Index trees -/

/-- The loop over the children of an internal page. -/
def joinNodes (validate : Nat → Finset Nat → Except StorageError (ValidatedNode × Finset Nat)) (level : Nat) :
    List (Option Entry × Nat) → ValidatedNode → Finset Nat → Except StorageError (ValidatedNode × Finset Nat)
  | [], result, owned => .ok (result, owned)
  | (sep, id) :: children, result, owned => do
    let (child, owned) ← validate id owned
    throwIf (child.level + 1 ≠ level) (.corruption ⟨"index child level is invalid"⟩)
    throwIf (sep.isSome ∧ sep ≠ child.entries.head?) (.corruption ⟨"index separator does not match child minimum"⟩)
    throwIf (∃ last ∈ result.entries.getLast?, ∃ front ∈ child.entries.head?, front < last)
      (.corruption ⟨"index child ranges overlap out of order"⟩)
    joinNodes validate level children
      ⟨result.level, result.entries ++ child.entries, result.leaves ++ child.leaves⟩ owned

/-- The recursion, given up below `fuel` levels. -/
def validateNode (pages : List Page) : Nat → Nat → Finset Nat → Finset Nat →
    Except StorageError (ValidatedNode × Finset Nat)
  | 0, _, _, _ => .error .diverges
  | fuel + 1, id, owned, active => do
    throwIf (id ≥ pages.length) (.corruption ⟨"index child pointer is outside the file"⟩)
    throwIf (id ∈ active) (.corruption ⟨"index contains a child cycle"⟩)
    throwIf (id ∈ owned) (.corruption ⟨"index page is referenced more than once"⟩)
    let page ← pageAt pages id
    match page.type with
    | .indexLeaf => do
      let (_, entries) ← liftCorruption (readAll (readLeaf true) page.payload)
      throwIf (¬ entries.IsChain (· ≤ ·)) (.corruption ⟨"index leaf entries are not ordered"⟩)
      pure (⟨0, entries, [id]⟩, insert id owned)
    | .indexInternal => do
      throwIf (page.next ≠ noPage) (.corruption ⟨"internal index page has a sibling link"⟩)
      let (level, first, rest) ← liftCorruption (readAll (readInternal true) page.payload)
      throwIf (¬ (rest.map Prod.fst).IsChain (· ≤ ·)) (.corruption ⟨"internal index separators are not ordered"⟩)
      joinNodes (fun child owned => validateNode pages fuel child owned (insert id active)) level
        ((none, first) :: rest.map (fun r => (some r.1, r.2))) ⟨level, [], []⟩ (insert id owned)
    | _ => .error (.corruption ⟨"index root or child has the wrong page type"⟩)

/-- Children that are validated alike are joined alike. -/
theorem joinNodes_eq {validate : Nat → Finset Nat → Except Corruption (ValidatedNode × Finset Nat)}
    {validate' : Nat → Finset Nat → Except StorageError (ValidatedNode × Finset Nat)}
    (h : ∀ id owned, validate' id owned = liftCorruption (validate id owned)) (level : Nat) :
    ∀ (children : List (Option Entry × Nat)) (result : ValidatedNode) (owned : Finset Nat),
      joinNodes validate' level children result owned = liftCorruption (joinChildren validate level children result owned)
  | [], _, _ => rfl
  | (sep, id) :: children, result, owned => by
    rw [joinNodes, joinChildren, h, liftCorruption_bind]
    refine congrArg (liftCorruption (validate id owned) >>= ·) (funext (fun r => ?_))
    simp only [liftCorruption_bind, throwIf_lift, joinNodes_eq h level children]

/-- One level of `validateIndexNode`, its checks one behind the other. -/
theorem validateIndexNode_eq (pages : List Page) (id : Nat) (owned active : Finset Nat) :
    validateIndexNode pages id owned active = (match pages[id]? with
      | none => .error ⟨"index child pointer is outside the file"⟩
      | some page => do
        throwIf (id ∈ active) ⟨"index contains a child cycle"⟩
        throwIf (id ∈ owned) ⟨"index page is referenced more than once"⟩
        match page.type with
        | .indexLeaf => do
          let (_, entries) ← readAll (readLeaf true) page.payload
          throwIf (¬ entries.IsChain (· ≤ ·)) ⟨"index leaf entries are not ordered"⟩
          pure (⟨0, entries, [id]⟩, insert id owned)
        | .indexInternal => do
          throwIf (page.next ≠ noPage) ⟨"internal index page has a sibling link"⟩
          let (level, first, rest) ← readAll (readInternal true) page.payload
          throwIf (¬ (rest.map Prod.fst).IsChain (· ≤ ·)) ⟨"internal index separators are not ordered"⟩
          joinChildren (fun child owned => validateIndexNode pages child owned (insert id active)) level
            ((none, first) :: rest.map (fun r => (some r.1, r.2))) ⟨level, [], []⟩ (insert id owned)
        | _ => .error ⟨"index root or child has the wrong page type"⟩) := by
  conv => lhs; rw [validateIndexNode]
  split
  · rename_i hp
    rw [hp]
  · rename_i page hp
    rw [hp]
    by_cases ha : id ∈ active
    · simp [ha, throwIf, bind, Except.bind]
    by_cases ho : id ∈ owned
    · simp [ha, ho, throwIf, bind, Except.bind]
    · simp only [ha, ho, throwIf, dif_neg, if_neg, not_false_eq_true]
      rfl

/-- **The recursion of `validate_index_node` ends**, inside the page vector and with what `validateIndexNode` returns: on
each level one page more is active. -/
theorem validateNode_eq {pages : List Page} : ∀ {fuel id : Nat} {owned active : Finset Nat},
    (Finset.range pages.length \ active).card < fuel →
      validateNode pages fuel id owned active = liftCorruption (validateIndexNode pages id owned active)
  | 0, _, _, _, h => absurd h (Nat.not_lt_zero _)
  | fuel + 1, id, owned, active, h => by
    rw [validateNode, validateIndexNode_eq]
    cases hp : pages[id]? with
    | none =>
      have hout : id ≥ pages.length := List.getElem?_eq_none_iff.1 hp
      simp [throwIf, hout, bind, Except.bind, liftCorruption]
    | some page =>
      have hlt := lt_of_getElem?_some hp
      rw [throwIf_neg (Nat.not_le.2 hlt), pageAt_some hp]
      by_cases ha : id ∈ active
      · simp [throwIf, ha, bind, Except.bind, liftCorruption]
      have hmeasure := unvisited_lt hlt ha
      have ih : ∀ child owned, validateNode pages fuel child owned (insert id active) =
          liftCorruption (validateIndexNode pages child owned (insert id active)) := fun child owned =>
        validateNode_eq (Nat.lt_of_lt_of_le hmeasure (Nat.lt_succ_iff.1 h))
      by_cases ho : id ∈ owned
      · simp [throwIf, ha, ho, bind, Except.bind, liftCorruption]
      rw [throwIf_neg ha, throwIf_neg ho, throwIf_neg ha, throwIf_neg ho]
      simp only [except_ok_bind]
      cases page.type with
      | indexLeaf =>
        simp only [liftCorruption_bind, throwIf_lift]
        rfl
      | indexInternal => simp only [liftCorruption_bind, throwIf_lift, joinNodes_eq ih]
      | _ => rfl

/-! ## The walks of an insert -/

/-- **Traversals of page links end.**  On any page vector the loop of `read_chain` and the recursion of
`validate_index_node` take no more steps than there are pages and one, and return or report corruption without a
subscript outside; on an image that parses nothing an insert throws comes from its walk along the row chain or its
descents into the indexes. -/
theorem traversals_end :
    (∀ (pages : List Page) (type : PageType) (head : Nat) (owned : Finset Nat) (fuel : Nat), pages.length < fuel →
      (⟨head, ∅, owned, []⟩ : ChainLoop).run pages type fuel = liftCorruption (readChain pages type head ∅ owned)) ∧
    (∀ (pages : List Page) (root : Nat) (owned : Finset Nat) (fuel : Nat), pages.length < fuel →
      validateNode pages fuel root owned ∅ = liftCorruption (validateIndexNode pages root owned ∅)) ∧
    ∀ (image : Bytes) (parsed : ParsedImage) (row : List Bytes) (e : StorageError), parseImage image false = .ok parsed →
      insertRowPages parsed row = .error e → InsertRefusal parsed row e := by
  refine ⟨fun pages type head owned fuel h => ?_, fun pages root owned fuel h => validateNode_eq (by simpa using h),
    fun image parsed row e hparse herror => ?_⟩
  · rw [run_readChain (by simpa using h)]
    refine congrArg liftCorruption ?_
    cases readChain pages type head ∅ owned <;> rfl
  · obtain ⟨-, L, hL, hP⟩ := parseImage_ok hparse
    rw [hP] at herror ⊢
    rcases insertRowPages_accepted hL row with ⟨e', he', hrefusal⟩ | ⟨hins, hrow, hgen⟩
    · obtain rfl : e = e' := Except.error.inj (herror.symm.trans he')
      exact hrefusal
    · obtain ⟨w, L', hrun, -⟩ := insertRowPages_spec hL hins hrow hgen
      rw [hrun] at herror
      cases herror

/-- A page that is linked to itself. -/
theorem traversals_end_loop : (⟨0, ∅, ∅, []⟩ : ChainLoop).run [⟨.rows, 0, 0, []⟩] .rows 2 =
    .error (.corruption ⟨"page chain contains a cycle"⟩) := by
  have hloop : readChain [⟨.rows, 0, 0, []⟩] .rows 0 {0} {0} = .error ⟨"page chain contains a cycle"⟩ := by
    rw [readChain_eq]
    rfl
  rw [traversals_end.1 _ _ _ _ _ (by decide), readChain_eq]
  simp [bind, Except.bind, throwIf, liftCorruption, noPage, hloop]

end Storage
end Sql
