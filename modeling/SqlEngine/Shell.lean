import SqlEngine.Batch
/-!
# Shell — the loop of `run_sql`

The program reads commands until a line is `end`, or until a command does not return.  At the end of its input `getline`
leaves the line empty, and an empty line is skipped: without an `end` a loop that no command stops goes on for ever
(`shell_exact`).
-/
namespace Sql
namespace Storage

open Wire Effects

/-! ## The loop -/

/-- `getline`: the line, and the rest of the input. -/
def getLine : Bytes → Bytes × Bytes
  | [] => ([], [])
  | b :: bs => if b = 10 then ([], bs) else
    let (line, rest) := getLine bs
    (b :: line, rest)

/-- Where the program is, with the members behind each command. -/
inductive Shell (F : Type) where
  | ended (replies : List SQL) (behind : F)
  /-- A command did not return. -/
  | died (replies : List SQL)
  /-- The rounds are spent, and the loop goes on. -/
  | running (replies : List SQL) (behind : F)

namespace Shell
variable {F G : Type}

def reply (sql : SQL) : Shell F → Shell F
  | ended replies behind => ended (sql :: replies) behind
  | died replies => died (sql :: replies)
  | running replies behind => running (sql :: replies) behind

def map (f : F → G) : Shell F → Shell G
  | ended replies behind => ended replies (f behind)
  | died replies => died replies
  | running replies behind => running replies (f behind)

/-- An input without an `end` is not over behind its last command. -/
def endless : Shell F → Shell F
  | ended replies behind => running replies behind
  | shell => shell

/-- One command after another. -/
def run (command : Bytes → F → Option (SQL × F)) : List Bytes → F → Shell F
  | [], behind => ended [] behind
  | cmd :: cmds, behind =>
    match command cmd behind with
    | none => died []
    | some (sql, behind) => (run command cmds behind).reply sql

end Shell

/-- The loop of `main`, with a bound on its rounds: what is printed comes from the members behind each command. -/
def mainLoop : Nat → Bytes → Files → Shell Files
  | 0, _, files => .running [] files
  | fuel + 1, cin, files =>
    let (input, cin) := getLine cin
    if input = [] then mainLoop fuel cin files
    else if input = ascii "cls" then mainLoop fuel cin files
    else if input = ascii "end" then .ended [] files
    else
      match SQL.command input files with
      | none => .died []
      | some (sql, files) => (mainLoop fuel cin files).reply sql

/-- The lines that are commands. -/
def shellCommands (lines : List Bytes) : List Bytes :=
  (lines.takeWhile (fun input => input ≠ ascii "end")).filter (fun input => input ≠ [] ∧ input ≠ ascii "cls")

/-! ## Lines -/

theorem getLines_getLine : ∀ (line content : Bytes), line ≠ [] ∨ content ≠ [] →
    getLines line content = (line ++ (getLine content).1) :: getLines [] (getLine content).2
  | line, [], h => by
    rw [getLines, if_neg (h.resolve_right (fun hne => hne rfl)), getLine, List.append_nil]
    rfl
  | line, b :: bs, _ => by
    rw [getLines, getLine]
    by_cases hb : b = 10
    · rw [if_pos hb, if_pos hb, List.append_nil]
    · rw [if_neg hb, if_neg hb, getLines_getLine (line ++ [b]) bs (Or.inl (by simp)), List.append_assoc]
      rfl

namespace Shell
variable {F G : Type}

@[simp] theorem endless_reply (sql : SQL) (shell : Shell F) : (shell.reply sql).endless = shell.endless.reply sql := by
  cases shell <;> rfl

@[simp] theorem map_reply (f : F → G) (sql : SQL) (shell : Shell F) : (shell.reply sql).map f = (shell.map f).reply sql := by
  cases shell <;> rfl

theorem map_endless (f : F → G) (shell : Shell F) : shell.endless.map f = (shell.map f).endless := by
  cases shell <;> rfl

theorem endless_ne_ended (shell : Shell F) (replies : List SQL) (behind : F) : shell.endless ≠ .ended replies behind := by
  cases shell <;> exact nofun

end Shell

/-- At the end of the input. -/
theorem mainLoop_eof (files : Files) : ∀ fuel, mainLoop fuel [] files = .running [] files
  | 0 => rfl
  | fuel + 1 => by
    simp only [mainLoop, getLine, if_true]
    exact mainLoop_eof files fuel

/-- **The loop runs the commands before the first `end`**, and goes on if there is none. -/
theorem mainLoop_run : ∀ (fuel : Nat) (cin : Bytes) (files : Files), (getLines [] cin).length ≤ fuel →
    mainLoop fuel cin files = if ascii "end" ∈ getLines [] cin then Shell.run SQL.command
      (shellCommands (getLines [] cin)) files
      else (Shell.run SQL.command (shellCommands (getLines [] cin)) files).endless
  | fuel, [], files, _ => mainLoop_eof files fuel
  | 0, b :: bs, _, hle => by
    rw [getLines_getLine [] (b :: bs) (Or.inr (List.cons_ne_nil b bs))] at hle
    exact absurd hle (Nat.not_succ_le_zero _)
  | fuel + 1, b :: bs, files, hle => by
    have hlines := getLines_getLine [] (b :: bs) (Or.inr (List.cons_ne_nil b bs))
    rw [hlines] at hle ⊢
    rw [List.nil_append] at hle ⊢
    rw [mainLoop]
    generalize getLine (b :: bs) = read at hle ⊢
    obtain ⟨input, cin⟩ := read
    simp only at hle ⊢
    have hrest := fun files => mainLoop_run fuel cin files (Nat.le_of_succ_le_succ hle)
    have hcls : ascii "cls" ≠ ascii "end" := by decide
    have hnil : ([] : Bytes) ≠ ascii "end" := by decide
    by_cases h1 : input = []
    · simp [hrest, shellCommands, h1, hnil, Ne.symm hnil]
    by_cases h2 : input = ascii "cls"
    · rw [if_neg h1, if_pos h2, hrest]
      simp [shellCommands, h2, hcls, Ne.symm hcls]
    by_cases h3 : input = ascii "end"
    · rw [if_neg h1, if_neg h2, if_pos h3]
      simp [shellCommands, h3, Shell.run]
    · have hcommands : shellCommands (input :: getLines [] cin) = input :: shellCommands (getLines [] cin) := by
        simp [shellCommands, h1, h2, h3]
      rw [if_neg h1, if_neg h2, if_neg h3, hcommands, Shell.run]
      cases SQL.command input files with
      | none => exact (ite_self _).symm
      | some behind =>
        obtain ⟨sql, files⟩ := behind
        simp only [hrest, List.mem_cons, Ne.symm h3, false_or, Shell.endless_reply]
        split_ifs <;> rfl

/-- Without an `end` there is no end, whatever the bound. -/
theorem mainLoop_endless : ∀ (fuel : Nat) (cin : Bytes) (files : Files), ascii "end" ∉ getLines [] cin →
    ∃ shell : Shell Files, mainLoop fuel cin files = shell.endless
  | 0, _, files, _ => ⟨.running [] files, rfl⟩
  | fuel + 1, [], files, _ => ⟨.running [] files, mainLoop_eof files _⟩
  | fuel + 1, b :: bs, files, hmem => by
    have hlines := getLines_getLine [] (b :: bs) (Or.inr (List.cons_ne_nil b bs))
    rw [hlines, List.nil_append, List.mem_cons, not_or] at hmem
    have hrest := fun files => mainLoop_endless fuel (getLine (b :: bs)).2 files hmem.2
    rw [mainLoop]
    simp only [if_neg (Ne.symm hmem.1)]
    split_ifs
    · exact hrest files
    · exact hrest files
    · cases SQL.command (getLine (b :: bs)).1 files with
      | none => exact ⟨.died [], rfl⟩
      | some behind =>
        obtain ⟨shell, hshell⟩ := hrest behind.2
        exact ⟨shell.reply behind.1, by rw [Shell.endless_reply, ← hshell]⟩

/-! ## The program -/

/-- **Commands from a tidy directory** are commands on the database that the directory shows, also the one that kills the
program. -/
theorem run_shown {cmds : List Bytes} {n : Nat} {files : Files} (h : Fits n files) (hlen : n + cmds.length ≤ 2 ^ 24) :
    (Shell.run SQL.command cmds files).map shown = Shell.run (fun cmd db => db.command cmd) cmds (shown files) := by
  induction cmds generalizing n files with
  | nil => rfl
  | cons cmd cmds ih =>
    rw [List.length_cons] at hlen
    obtain ⟨hsame, hfits⟩ := command_exact h (by omega) cmd
    rw [Shell.run, Shell.run, ← hsame]
    cases hcommand : SQL.command cmd files with
    | none => rfl
    | some behind =>
      obtain ⟨sql, mid⟩ := behind
      exact (Shell.map_reply shown sql _).trans (congrArg (Shell.reply sql) (ih (hfits sql mid hcommand) (by omega)))

/-- **The interactive program** from a tidy directory, with 2²⁴ commands in all: the commands in front of the first line
`end` go as on the abstract database.  With an `end` the program gives the database's replies and ends, and the files show
what the database is then, or it dies with the command that the database dies with.  Without one it never ends: it dies, or
it has given the replies and still runs after every number of rounds. -/
theorem shell_exact {n : Nat} {files : Files} (h : Fits n files) (cin : Bytes)
    (hlen : n + (shellCommands (getLines [] cin)).length ≤ 2 ^ 24) :
    (ascii "end" ∈ getLines [] cin → ∀ fuel, (getLines [] cin).length ≤ fuel → (mainLoop fuel cin files).map shown =
      Shell.run (fun cmd db => db.command cmd) (shellCommands (getLines [] cin)) (shown files)) ∧
    (ascii "end" ∉ getLines [] cin →
      (∀ fuel, (getLines [] cin).length ≤ fuel → (mainLoop fuel cin files).map shown =
        (Shell.run (fun cmd db => db.command cmd) (shellCommands (getLines [] cin)) (shown files)).endless) ∧
      ∀ fuel replies files', mainLoop fuel cin files ≠ .ended replies files') := by
  refine ⟨fun hmem fuel hfuel => ?_, fun hmem => ⟨fun fuel hfuel => ?_, fun fuel replies files' => ?_⟩⟩
  · rw [mainLoop_run fuel cin files hfuel, if_pos hmem]
    exact run_shown h hlen
  · rw [mainLoop_run fuel cin files hfuel, if_neg hmem, Shell.map_endless, run_shown h hlen]
  · obtain ⟨shell, hshell⟩ := mainLoop_endless fuel cin files hmem
    rw [hshell]
    exact shell.endless_ne_ended replies files'

def shellInput : Bytes := ascii ("create table t fields a, b\ncls\n\ninsert into t values x, y\nselect c from t\n" ++
  "select b from t where a = x\nend\ncreate create")

/-- The second command kills the program. -/
def deadlyInput : Bytes := ascii "create table t fields a\ncreate create\nend"

/-- One command, and no `end`. -/
def endlessInput : Bytes := ascii "create table t fields a\n\ncls"

/-- What a program printed, by the errors and the values in its replies. -/
def Shell.printed {F : Type} (shell : Shell F) : List (Bool × List Bytes) :=
  let replies := match shell with | ended replies _ | died replies | running replies _ => replies
  replies.map (fun reply => (reply.error, reply.table.printQueue))

theorem shell_exact_input :
    (∃ replies files', mainLoop 8 shellInput scriptFiles = .ended replies files' ∧
      (Shell.ended replies files').printed =
        [(false, []), (false, [ascii "x", ascii "y"]), (true, []), (false, [ascii "y"])] ∧
      shown files' (ascii "t") = .stored ⟨[ascii "a", ascii "b"], [[ascii "x", ascii "y"]]⟩ true) ∧
    (∃ replies, mainLoop 3 deadlyInput scriptFiles = .died replies ∧
      (Shell.died replies : Shell Files).printed = [(false, [])]) ∧
    ∀ fuel ≥ 3, ∃ replies files', mainLoop fuel endlessInput scriptFiles = .running replies files' ∧
      (Shell.running replies files').printed = [(false, [])] := by
  refine ⟨?_, ?_, fun fuel hfuel => ?_⟩
  · have hexact := (shell_exact scriptFiles_fits shellInput (by decide +kernel)).1 (by decide +kernel) 8 (by decide +kernel)
    rw [shown_scriptFiles] at hexact
    have hdatabase : (match Shell.run (fun cmd db => Database.command db cmd) (shellCommands (getLines [] shellInput))
        (fun _ => .absent) with
      | .ended replies db => some ((Shell.ended replies db).printed, db (ascii "t"))
      | _ => none) = some ([(false, []), (false, [ascii "x", ascii "y"]), (true, []), (false, [ascii "y"])],
          .stored ⟨[ascii "a", ascii "b"], [[ascii "x", ascii "y"]]⟩ true) := by decide +kernel
    rw [← hexact] at hdatabase
    cases hloop : mainLoop 8 shellInput scriptFiles with
    | ended replies files' =>
      rw [hloop] at hdatabase
      obtain ⟨hprinted, hshown⟩ := Prod.mk.inj (Option.some.inj hdatabase)
      exact ⟨replies, files', rfl, hprinted, hshown⟩
    | died => rw [hloop] at hdatabase; cases hdatabase
    | running => rw [hloop] at hdatabase; cases hdatabase
  · have hexact := (shell_exact scriptFiles_fits deadlyInput (by decide)).1 (by decide) 3 (by decide)
    rw [shown_scriptFiles] at hexact
    have hdatabase : (match Shell.run (fun cmd db => Database.command db cmd) (shellCommands (getLines [] deadlyInput))
        (fun _ => .absent) with
      | .died replies => some (Shell.died replies : Shell Files).printed
      | _ => none) = some [(false, [])] := by decide +kernel
    rw [← hexact] at hdatabase
    cases hloop : mainLoop 3 deadlyInput scriptFiles with
    | died replies =>
      rw [hloop] at hdatabase
      exact ⟨replies, rfl, Option.some.inj hdatabase⟩
    | ended => rw [hloop] at hdatabase; cases hdatabase
    | running => rw [hloop] at hdatabase; cases hdatabase
  · have hexact := ((shell_exact scriptFiles_fits endlessInput (by decide)).2 (by decide)).1 fuel
      ((by decide : (getLines [] endlessInput).length ≤ 3).trans hfuel)
    rw [shown_scriptFiles] at hexact
    have hdatabase : (match (Shell.run (fun cmd db => Database.command db cmd) (shellCommands (getLines [] endlessInput))
        (fun _ => .absent)).endless with
      | .running replies db => some (Shell.running replies db).printed
      | _ => none) = some [(false, [])] := by decide +kernel
    rw [← hexact] at hdatabase
    cases hloop : mainLoop fuel endlessInput scriptFiles with
    | running replies files' =>
      rw [hloop] at hdatabase
      exact ⟨replies, files', rfl, Option.some.inj hdatabase⟩
    | ended => rw [hloop] at hdatabase; cases hdatabase
    | died => rw [hloop] at hdatabase; cases hdatabase

end Storage
end Sql
