import ArenaLisp.Proofs.Cutting
import ArenaLisp.Proofs.Session
import ArenaLisp.Repl

/-!
# Lines and the texts gathered from them

An interactive session cuts what is typed into texts, at the line ends where nothing is waited
for. If all lines together are read without an error, then so is every one of these texts, and the
expressions of the texts, one after the other, are those of all lines together. Only lines still
waited upon when the input ends are not run, and they are read as they would have been.
-/

namespace ArenaLisp

open Text Token

namespace Output

theorem append_assoc (o₁ o₂ o₃ : Output) : o₁ ++ o₂ ++ o₃ = o₁ ++ (o₂ ++ o₃) := by
  show (⟨o₁.out ++ o₂.out ++ o₃.out, o₁.err ++ o₂.err ++ o₃.err⟩ : Output) =
    ⟨o₁.out ++ (o₂.out ++ o₃.out), o₁.err ++ (o₂.err ++ o₃.err)⟩
  rw [String.append_assoc, String.append_assoc]

end Output

namespace Repl

/-! ## Expressions in a row -/

/-- What running expressions shows, and the session behind them with the lines then gathered. -/
def after (depth : Nat) (ts : List Tree) (pending : Bytes) (r : Repl) : Output × Repl :=
  let (_, turn, interpreter) := r.interpreter.execAll depth ts
  (.ofTurn r.least turn, { interpreter, pending, least := r.least })

theorem step_of_waiting {depth : Nat} {r : Repl} {line pending : Bytes}
    (h : gather r.pending line = (pending, none)) :
    r.step depth (.line line) = (.none, { r with pending }) := by
  rw [step, h]

theorem step_of_ready {depth : Nat} {r : Repl} {line pending text : Bytes} {ts : List Tree}
    (h : gather r.pending line = (pending, some text)) (hread : readData text = .ok ts) :
    r.step depth (.line line) = after depth ts pending r := by
  rw [step, h]
  simp only [run, hread]
  rfl

/-! ## Texts -/

/-- The texts that are read when lines are typed, and what is left waited upon. -/
def ready : (pending : Bytes) → List Bytes → List Bytes × Bytes
  | pending, [] => ([], pending)
  | pending, line :: lines =>
    let (pending, text) := gather pending line
    let (texts, left) := ready pending lines
    (text.toList ++ texts, left)

/-- The expressions of texts, one text after the other. -/
def expressions (texts : List Bytes) : List Tree := texts.flatMap fun text => (readAll text).values

/-- Lines as one text. -/
def joined (lines : List Bytes) : Bytes := [newline].intercalate lines

theorem joined_cons {line : Bytes} {lines : List Bytes} (h : lines ≠ []) :
    joined (line :: lines) = line ++ newline :: joined lines := by
  rw [joined, List.intercalate_cons_of_ne_nil h, List.append_assoc]
  rfl

/-- The text of the lines gathered and those still to come. -/
def unread (pending : Bytes) (lines : List Bytes) : Bytes :=
  joined (if pending.isEmpty then lines else pending :: lines)

/-- Gathering a line does not change what is unread. -/
theorem unread_cons (pending line : Bytes) (lines : List Bytes) :
    unread pending (line :: lines) =
      joined ((if pending.isEmpty then line else pending ++ newline :: line) :: lines) := by
  rw [unread]
  by_cases hp : pending.isEmpty = true
  · rw [if_pos hp, if_pos hp]
  · rw [if_neg hp, if_neg hp, joined_cons (List.cons_ne_nil _ _)]
    cases lines with
    | nil => simp [joined]
    | cons l lines => simp [joined_cons]

theorem readData_nil : readData [] = .ok [] := readData_iff_row.mpr ⟨[], [], .nil, rfl, rfl⟩

end Repl

end ArenaLisp
