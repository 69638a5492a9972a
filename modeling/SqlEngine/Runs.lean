import SqlEngine.Crash
/-!
# Runs — every order of calls, kills and recoveries

A run is any list of opens and inserts on a table that was created, each returned, refused or killed after any of its
effects.  The invariant is that the table stands with all rows so far, or that an insert was killed inside its log record and
the table is torn by that alone (`step_inv`, `run_inv`); `crash_safety` reads off what a caller may rely on.
-/
namespace Sql
namespace Storage

open Wire BTree Blocks Effects

/-! ## Events -/

/-- How far an insert got with its log record before it was killed. -/
inductive Progress where
  | unlogged
  | torn
  | durable

def Progress.Of (es : List DiskEffect) : Progress → Prop
  | unlogged => ¬ Begun es
  | torn => Begun es ∧ ¬ Durable es
  | durable => Durable es

theorem Progress.unique {es : List DiskEffect} : ∀ {p q : Progress}, p.Of es → q.Of es → p = q
  | unlogged, unlogged, _, _ | torn, torn, _, _ | durable, durable, _, _ => rfl
  | unlogged, torn, h, h' => absurd h'.1 h
  | unlogged, durable, h, h' => absurd h'.begun h
  | torn, unlogged, h, h' => absurd h.1 h'
  | torn, durable, h, h' => absurd h' h.2
  | durable, unlogged, h, h' => absurd h.begun h'
  | durable, torn, h, h' => absurd h h'.2

/-- One call as it ended. -/
inductive Event where
  | opened (table : LoadedTable)
  | openThrew (error : StorageError)
  | openKilled
  | inserted (row : List Bytes)
  | insertThrew (row : List Bytes) (error : StorageError)
  | insertKilled (row : List Bytes) (progress : Progress)

/-- The rows that an event adds. -/
def Event.rows : Event → List (List Bytes)
  | inserted row => [row]
  | insertKilled row .durable => [row]
  | _ => []

/-- One call, run to its end or killed after `k` effects. -/
inductive Step (path : String) : Disk → Event → Disk → Prop where
  | opened {disk table} (h : (openTable path disk).result = .ok table) :
      Step path disk (.opened table) (after disk (openTable path disk).effects)
  | openThrew {disk e} (h : (openTable path disk).result = .error e) :
      Step path disk (.openThrew e) (after disk (openTable path disk).effects)
  | openKilled {disk} (k : Nat) : Step path disk .openKilled (after disk ((openTable path disk).effects.take k))
  | inserted {disk} (row) (h : (insertRow path row disk).result = .ok ()) :
      Step path disk (.inserted row) (after disk (insertRow path row disk).effects)
  | insertThrew {disk} (row) {e} (h : (insertRow path row disk).result = .error e) :
      Step path disk (.insertThrew row e) (after disk (insertRow path row disk).effects)
  | insertKilled {disk} (row) {progress : Progress} (k : Nat)
      (h : progress.Of ((insertRow path row disk).effects.take k)) :
      Step path disk (.insertKilled row progress) (after disk ((insertRow path row disk).effects.take k))

inductive Run (path : String) (start : Disk) : List Event → Disk → Prop where
  | nil : Run path start [] start
  | step {events disk e disk'} (h : Run path start events disk) (hs : Step path disk e disk') :
      Run path start (events ++ [e]) disk'

/-! ## The invariant -/

/-- The table stands and no insert was killed inside its record, or one was and the table is torn; with all rows so far. -/
def Inv (disk : Disk) (fields : List Bytes) (rows : List (List Bytes)) (events : List Event) : Prop :=
  (Stands disk fields (rows ++ events.flatMap Event.rows) (1 + (events.flatMap Event.rows).length) ∧
      ∀ row, Event.insertKilled row .torn ∉ events) ∨
    (Torn disk fields (rows ++ events.flatMap Event.rows) (1 + (events.flatMap Event.rows).length) ∧
      ∃ row, Event.insertKilled row .torn ∈ events)

variable {fields : List Bytes} {rows : List (List Bytes)}

/-- An event that adds no row, on a table that stands. -/
theorem Inv.quiet {disk : Disk} {events : List Event} {e : Event} (he : e.rows = [])
    (hne : ∀ row, e ≠ .insertKilled row .torn) (hnone : ∀ row, Event.insertKilled row .torn ∉ events)
    (h : Stands disk fields (rows ++ events.flatMap Event.rows) (1 + (events.flatMap Event.rows).length)) :
    Inv disk fields rows (events ++ [e]) := by
  unfold Inv
  rw [List.flatMap_append, List.flatMap_singleton, he, List.append_nil]
  refine Or.inl ⟨h, fun row hmem => ?_⟩
  exact (List.mem_append.1 hmem).elim (hnone row) (fun hlast => hne row (List.mem_singleton.1 hlast).symm)

/-- Nothing moves on a torn table. -/
theorem Inv.still {disk : Disk} {events : List Event} {e : Event} (he : e.rows = [])
    (h : Torn disk fields (rows ++ events.flatMap Event.rows) (1 + (events.flatMap Event.rows).length) ∧
      ∃ row, Event.insertKilled row .torn ∈ events) : Inv disk fields rows (events ++ [e]) := by
  unfold Inv
  rw [List.flatMap_append, List.flatMap_singleton, he, List.append_nil]
  exact Or.inr ⟨h.1, h.2.imp (fun _ hr => List.mem_append_left _ hr)⟩

theorem Inv.add {disk : Disk} {events : List Event} {e : Event} {row : List Bytes} (he : e.rows = [row])
    (hnone : ∀ row, Event.insertKilled row .torn ∉ events)
    (h : Stands disk fields (rows ++ events.flatMap Event.rows ++ [row]) (1 + (events.flatMap Event.rows).length + 1)) :
    Inv disk fields rows (events ++ [e]) := by
  unfold Inv
  rw [List.flatMap_append, List.flatMap_singleton, he, List.length_append, List.length_singleton, ← List.append_assoc,
    ← Nat.add_assoc]
  refine Or.inl ⟨h, fun row' hmem => ?_⟩
  rcases List.mem_append.1 hmem with hmem | hlast
  · exact hnone row' hmem
  · rw [← List.mem_singleton.1 hlast] at he
    cases he

theorem Inv.torn {disk : Disk} {events : List Event} {row : List Bytes}
    (h : Torn disk fields (rows ++ events.flatMap Event.rows) (1 + (events.flatMap Event.rows).length)) :
    Inv disk fields rows (events ++ [.insertKilled row .torn]) := by
  unfold Inv
  rw [List.flatMap_append, List.flatMap_singleton, show Event.rows (.insertKilled row .torn) = [] from rfl, List.append_nil]
  exact Or.inr ⟨h, row, List.mem_append_right _ List.mem_cons_self⟩

/-- An open keeps the invariant wherever it is killed, and where it ends. -/
theorem opened_inv {path : String} {disk : Disk} {events : List Event} {e : Event} (he : e.rows = [])
    (hne : ∀ row, e ≠ .insertKilled row .torn) (k : Nat) (h : Inv disk fields rows events) :
    Inv (after disk ((openTable path disk).effects.take k)) fields rows (events ++ [e]) := by
  rcases h with ⟨hstands, hnone⟩ | htorn
  · obtain ⟨es, table, hopen, -, -, hcuts, -⟩ := openTable_stands path hstands
    rw [hopen]
    exact Inv.quiet he hne hnone (hcuts k)
  · obtain ⟨c, hopen⟩ := openTable_stuck path htorn.1.1
    rw [hopen, List.take_nil]
    exact Inv.still he htorn

/-- **One call** keeps the invariant, however it ends. -/
theorem step_inv {path : String} {disk disk' : Disk} {events : List Event} {e : Event} (hs : Step path disk e disk')
    (h : Inv disk fields rows events) : Inv disk' fields rows (events ++ [e]) := by
  cases hs with
  | @opened table hr =>
    have hend := @opened_inv fields rows path disk events (.opened table) rfl (fun _ heq => nomatch heq)
      (openTable path disk).effects.length h
    rwa [List.take_length] at hend
  | @openThrew error hr =>
    have hend := @opened_inv fields rows path disk events (.openThrew error) rfl (fun _ heq => nomatch heq)
      (openTable path disk).effects.length h
    rwa [List.take_length] at hend
  | openKilled k =>
    exact @opened_inv fields rows path disk events .openKilled rfl (fun _ heq => nomatch heq) k h
  | inserted row hr =>
    rcases h with ⟨hstands, hnone⟩ | htorn
    · obtain ⟨es, result, hrun, hok, -, -⟩ := insertRow_cuts path row hstands
      rw [hrun] at hr ⊢
      exact Inv.add rfl hnone (Or.inl (hok () hr))
    · obtain ⟨c, hrun⟩ := insertRow_stuck path row htorn.1.1
      rw [hrun] at hr
      cases hr
  | insertThrew row hr =>
    rcases h with ⟨hstands, hnone⟩ | htorn
    · obtain ⟨es, result, hrun, -, herror, -⟩ := insertRow_cuts path row hstands
      rw [hrun] at hr ⊢
      exact Inv.quiet rfl (fun _ heq => nomatch heq) hnone (Or.inl (herror _ hr))
    · obtain ⟨c, hrun⟩ := insertRow_stuck path row htorn.1.1
      rw [hrun]
      exact Inv.still rfl htorn
  | @insertKilled row progress k hp =>
    rcases h with ⟨hstands, hnone⟩ | htorn
    · obtain ⟨es, result, hrun, -, -, hcut⟩ := insertRow_cuts path row hstands
      rw [hrun] at hp ⊢
      rcases hcut k with ⟨hnot, hc⟩ | ⟨hbegun, hnot, hc⟩ | ⟨hdurable, hc⟩
      · obtain rfl := Progress.unique hp (show Progress.unlogged.Of _ from hnot)
        exact Inv.quiet rfl (fun _ heq => nomatch heq) hnone hc
      · obtain rfl := Progress.unique hp (show Progress.torn.Of _ from ⟨hbegun, hnot⟩)
        exact Inv.torn hc
      · obtain rfl := Progress.unique hp (show Progress.durable.Of _ from hdurable)
        exact Inv.add rfl hnone hc
    · obtain ⟨c, hrun⟩ := insertRow_stuck path row htorn.1.1
      rw [hrun, List.take_nil] at hp ⊢
      obtain rfl := Progress.unique hp (show Progress.unlogged.Of [] from not_begun_nil)
      exact Inv.still rfl htorn

theorem run_inv {path : String} {start disk : Disk} {events : List Event} (hstart : Clean start fields rows 1)
    (hrun : Run path start events disk) : Inv disk fields rows events := by
  induction hrun with
  | nil =>
    refine Or.inl ⟨Or.inl ?_, fun _ hmem => nomatch hmem⟩
    rw [List.flatMap_nil, List.append_nil]
    exact hstart
  | step _ hs ih => exact step_inv hs ih

/-- **Crash atomicity and durability.**  After any run over a table that was created, an open that returns gives the
fields, the rows the table was created with, and behind them in order the row of each insert that was acknowledged or
whose log record was complete when it was killed.  Both calls return (an insert, if its row fits and can be numbered)
exactly as long as no insert was killed inside its log record; behind one that was, the log holds a part of a record in front
of an untouched table, and both report corruption and leave the files alone. -/
theorem crash_safety {path : String} {disk₀ disk : Disk} {events : List Event}
    (hcreate : (createFromRows path fields rows disk₀).result = .ok ())
    (hrun : Run path (after disk₀ (createFromRows path fields rows disk₀).effects) events disk) :
    (∀ table, (openTable path disk).result = .ok table →
      table.fields = fields ∧ table.rows = rows ++ events.flatMap Event.rows) ∧
    ((∀ row, Event.insertKilled row .torn ∉ events) → (∃ table, (openTable path disk).result = .ok table) ∧
      ∀ row, RowOk fields.length row → (events.flatMap Event.rows).length + 2 < 2 ^ 64 → Room disk row →
        (insertRow path row disk).result = .ok ()) ∧
    ((∃ row, Event.insertKilled row .torn ∈ events) →
      Torn disk fields (rows ++ events.flatMap Event.rows) (1 + (events.flatMap Event.rows).length) ∧
        (∃ c, openTable path disk = ⟨[], .error (.corruption c)⟩) ∧
        ∀ row, ∃ c, insertRow path row disk = ⟨[], .error (.corruption c)⟩) := by
  rcases run_inv (createFromRows_clean hcreate) hrun with ⟨hstands, hnone⟩ | ⟨htorn, hsome⟩
  · obtain ⟨es, table, hopen, hfields, hrows, -⟩ := openTable_stands path hstands
    refine ⟨fun table' h => ?_, fun _ => ⟨⟨table, by rw [hopen]⟩, fun row hrow hlen hroom => ?_⟩,
      fun ⟨row, hr⟩ => absurd hr (hnone row)⟩
    · rw [hopen] at h
      obtain rfl := Except.ok.inj h
      exact ⟨hfields, hrows⟩
    · exact insertRow_returns path hstands hrow (by omega) hroom
  · obtain ⟨c, hopen⟩ := openTable_stuck path htorn.1
    refine ⟨fun table h => ?_, fun hnone => absurd hsome (fun ⟨row, hr⟩ => hnone row hr),
      fun _ => ⟨htorn, ⟨c, hopen⟩, fun row => insertRow_stuck path row htorn.1⟩⟩
    rw [hopen] at h
    cases h

/-- The files behind the creation of a table. -/
theorem create_onePages : (createFromRows "t" oneFields oneRows ⟨none, none⟩).result = .ok () ∧
    after (⟨none, none⟩ : Disk) (createFromRows "t" oneFields oneRows ⟨none, none⟩).effects =
      ⟨some (imageOf onePages), some []⟩ := by
  rw [createFromRows_ok rfl rfl buildImage_onePages]
  exact after_commitImage onePages_written

/-- The first insert into that table. -/
theorem insertRow_onePages (path : String) {disk : Disk} (hwal : walPresent disk = false)
    (hdb : disk.database = some (imageOf onePages)) : ∃ es, insertRow path [[120], [121]] disk = ⟨es, .ok ()⟩ ∧
      after disk es = ⟨some (imageOf grownPages), some []⟩ ∧
      Written (imageOf grownPages) oneFields (oneRows ++ [[[120], [121]]]) 2 := by
  obtain ⟨next, hnext⟩ := insert_onePages
  obtain ⟨-, hw⟩ := buildIncrementalInsert_next onePages_written hnext
  obtain ⟨-, hlen, -⟩ := hw.size
  have hoff : offsetMax = 2 ^ 63 - 1 := rfl
  have hafter := after_commit hdb hnext (by omega)
  rw [next_onePages hnext] at hw
  obtain ⟨es, hcommit, -⟩ := commit_cuts hwal hdb onePages_written hnext
  rw [hcommit, next_onePages hnext] at hafter
  refine ⟨es, ?_, hafter, hw⟩
  rw [(insertRow_run path (recover_clean hwal) hdb).1 next hnext, after_nil, hcommit]
  rfl

/-- The second one can be killed inside its record. -/
theorem insertRow_torn_onePages (path : String) {disk : Disk} (hwal : walPresent disk = false)
    (hdb : disk.database = some (imageOf grownPages))
    (hw : Written (imageOf grownPages) oneFields (oneRows ++ [[[120], [121]]]) 2) :
    ∃ k, Progress.torn.Of ((insertRow path [[121], [121]] disk).effects.take k) := by
  obtain ⟨P, w, hP, hrun, hnext⟩ := buildIncrementalInsert_written hw (⟨rfl, by decide⟩ : RowOk 2 [[121], [121]]) (by decide)
  obtain ⟨next, hnext, -, hw'⟩ := hnext (by rw [insert_grownPages_length hP hrun]; decide)
  obtain ⟨-, -, -, buffer, hmake, -⟩ := dirtyPages_suffice hnext
  obtain ⟨-, hlen, -⟩ := hw'.size
  have hoff : offsetMax = 2 ^ 63 - 1 := rfl
  obtain ⟨k, hk⟩ := @commit_torn next.image next.generation next.dirtyPages buffer hmake (by omega) disk
  have hinsert := (insertRow_run path (recover_clean hwal) hdb).1 next hnext
  rw [after_nil, List.nil_append] at hinsert
  rw [hinsert]
  exact ⟨k, hk⟩

/-- An insert is killed in front of its first effect, one is acknowledged, an open is killed, and one more insert is killed
inside its record. -/
theorem crash_safety_onePages : ∃ disk, Run "t" ⟨some (imageOf onePages), some []⟩
      [.insertKilled [[121], [121]] .unlogged, .inserted [[120], [121]], .openKilled, .insertKilled [[121], [121]] .torn]
      disk ∧ Torn disk oneFields (oneRows ++ [[[120], [121]]]) 2 ∧
    ∃ c, openTable "t" disk = ⟨[], .error (.corruption c)⟩ := by
  obtain ⟨hcreate, hdisk⟩ := create_onePages
  generalize hstart : (⟨some (imageOf onePages), some []⟩ : Disk) = start at hdisk ⊢
  obtain ⟨es, hinsert, hafter, hw⟩ := @insertRow_onePages "t" start (hstart ▸ rfl) (hstart ▸ rfl)
  have hfirst : Run "t" start [.insertKilled [[121], [121]] .unlogged] start :=
    Run.nil.step (Step.insertKilled [[121], [121]] 0 not_begun_nil)
  have hsecond := hfirst.step (Step.inserted [[120], [121]] (congrArg Outcome.result hinsert))
  rw [hinsert] at hsecond
  simp only [hafter] at hsecond
  have hthird := hsecond.step (Step.openKilled 0)
  obtain ⟨k, hk⟩ := @insertRow_torn_onePages "t" ⟨some (imageOf grownPages), some []⟩ rfl rfl hw
  have hlast := hthird.step (Step.insertKilled [[121], [121]] k hk)
  obtain ⟨-, -, htorn⟩ := crash_safety hcreate (hdisk.symm ▸ hlast)
  obtain ⟨htorn, hopen, -⟩ := htorn ⟨[[121], [121]], by simp⟩
  exact ⟨_, hlast, htorn, hopen⟩

end Storage
end Sql
