import ContractCode.Bytes

/-!
UTF-8 as a machine that takes one byte at a time. Between characters it takes a lead
byte; inside a character it still owes continuation bytes, and the lead byte narrows the
range of the next one, so that no character has two spellings and no surrogate has any.
A text is valid when the machine ends between characters. `repair` writes a replacement
character for every stretch that the machine refuses.
-/

namespace ContractCode.Utf8

/-- Where the machine stands between two bytes. -/
inductive State where
  | between
  /-- A byte from `low` to `high` comes next, and `owed` further continuation bytes
  follow it. -/
  | inside (low high : UInt8) (owed : Nat)
deriving Repr, DecidableEq

def lead (byte : UInt8) : Option State :=
  if byte < 0x80 then some .between
  else if byte < 0xC2 then none
  else if byte < 0xE0 then some (.inside 0x80 0xBF 0)
  else if byte = 0xE0 then some (.inside 0xA0 0xBF 1)
  else if byte = 0xED then some (.inside 0x80 0x9F 1)
  else if byte < 0xF0 then some (.inside 0x80 0xBF 1)
  else if byte = 0xF0 then some (.inside 0x90 0xBF 2)
  else if byte < 0xF4 then some (.inside 0x80 0xBF 2)
  else if byte = 0xF4 then some (.inside 0x80 0x8F 2)
  else none

def afterContinuation : Nat → State
  | 0 => .between
  | owed + 1 => .inside 0x80 0xBF owed

def step : State → UInt8 → Option State
  | .between, byte => lead byte
  | .inside low high owed, byte =>
    if low ≤ byte ∧ byte ≤ high then some (afterContinuation owed) else none

def run (state : State) : Bytes → Option State
  | [] => some state
  | byte :: rest => (step state byte).bind fun next => run next rest

def isValid (bytes : Bytes) : Bool := run .between bytes = some .between

theorem run_append (state : State) (left right : Bytes) :
    run state (left ++ right) = (run state left).bind fun next => run next right := by
  induction left generalizing state with
  | nil => rfl
  | cons byte left induction =>
    simp only [List.cons_append, run]
    cases step state byte with
    | none => rfl
    | some next => exact induction next

def replacement : Bytes := [0xEF, 0xBF, 0xBD]

/-- What a refused character leaves behind: one replacement character if it had begun. -/
def abandoned (pending : Bytes) : Bytes := if pending.isEmpty then [] else replacement

/-- Repairs a text whose current character began with the bytes `pending`. A byte that
cannot continue that character ends it and is tried as a lead byte itself. -/
def repairFrom (state : State) (pending : Bytes) : Bytes → Bytes
  | [] => abandoned pending
  | byte :: rest =>
    match step state byte with
    | some .between => pending ++ byte :: repairFrom .between [] rest
    | some next => repairFrom next (pending ++ [byte]) rest
    | none =>
      match lead byte with
      | some .between => abandoned pending ++ byte :: repairFrom .between [] rest
      | some next => abandoned pending ++ repairFrom next [byte] rest
      | none => abandoned pending ++ replacement ++ repairFrom .between [] rest

def repair (bytes : Bytes) : Bytes := repairFrom .between [] bytes

def bytes (text : String) : Bytes := text.toUTF8.data.toList

/-- The characters of a valid text, and the empty text for any other bytes. -/
def text (bytes : Bytes) : String :=
  (String.fromUTF8? ⟨bytes.toArray⟩).getD ""

theorem repairFrom_eq {state : State} {pending bytes : Bytes}
    (fresh : state = .between → pending = [])
    (valid : run state bytes = some .between) :
    repairFrom state pending bytes = pending ++ bytes := by
  induction bytes generalizing state pending with
  | nil =>
    simp only [run, Option.some.injEq] at valid
    simp [repairFrom, abandoned, fresh valid]
  | cons byte rest induction =>
    simp only [run] at valid
    cases stepped : step state byte with
    | none => simp [stepped] at valid
    | some next =>
      simp only [stepped, Option.bind_some] at valid
      cases next with
      | between =>
        have following : repairFrom .between [] rest = [] ++ rest :=
          induction (fun _ => rfl) valid
        simp [repairFrom, stepped, following]
      | inside low high owed =>
        have following : repairFrom (.inside low high owed) (pending ++ [byte]) rest =
            pending ++ [byte] ++ rest := induction (by simp) valid
        simp [repairFrom, stepped, following]

theorem repair_of_isValid {bytes : Bytes} (valid : isValid bytes = true) :
    repair bytes = bytes := by
  simp only [isValid, decide_eq_true_eq] at valid
  exact repairFrom_eq (fun _ => rfl) valid

theorem run_abandoned (pending : Bytes) :
    run .between (abandoned pending) = some .between := by
  rw [abandoned]
  split
  · rfl
  · decide

/-- The machine ends between characters on a repaired text. -/
theorem run_repairFrom {state : State} {pending : Bytes}
    (began : run .between pending = some state)
    (bytes : Bytes) : run .between (repairFrom state pending bytes) = some .between := by
  induction bytes generalizing state pending with
  | nil => exact run_abandoned pending
  | cons byte rest induction =>
    have afresh : run .between (repairFrom .between [] rest) = some .between :=
      induction rfl
    rw [repairFrom]
    split
    · rename_i stepped
      rw [run_append, began, Option.bind_some, run, stepped, Option.bind_some]
      exact afresh
    · rename_i next _ stepped
      apply induction
      rw [run_append, began, Option.bind_some, run, stepped]
      rfl
    · split
      · rename_i leads
        rw [run_append, run_abandoned, Option.bind_some, run, step, leads,
          Option.bind_some]
        exact afresh
      · rename_i next _ leads
        rw [run_append, run_abandoned, Option.bind_some]
        apply induction
        rw [run, step, leads]
        rfl
      · rw [run_append, run_append, run_abandoned, Option.bind_some]
        exact afresh

theorem isValid_repair (bytes : Bytes) : isValid (repair bytes) = true :=
  decide_eq_true (run_repairFrom rfl bytes)

end ContractCode.Utf8
