import ContractCode.CompiledCode
import ContractCode.Artifacts

/-!
Why the inputs of a comparison do not describe each other. Code that simply differs is
no error; it gives a result that says so.
-/

namespace ContractCode

inductive ReferenceKind where
  | library | immutable | cborAuxdata
deriving Repr, DecidableEq

def ReferenceKind.name : ReferenceKind → String
  | .library => "library"
  | .immutable => "immutable"
  | .cborAuxdata => "cbor auxdata"

inductive MatchError where
  | invalidCompiledCode (cause : CompiledCode.ParseError)
  | referenceOutOfBounds (kind : ReferenceKind) (id : String) (span : Span)
      (codeLength : Nat)
  /-- The code has something else where the library's address belongs. -/
  | invalidLibraryPlaceholder (id : String) (offset : Nat) (placeholder : String)
  | invalidAbi
  | codeLengthMismatch (expected found : Nat)
  /-- No metadata chunk contains a byte at which two compilations differ. -/
  | auxdataNotFound (offset : Nat)
deriving Repr, DecidableEq

namespace MatchError

/-- What the error says. An interface document that cannot be read has no wording of its
own. -/
def message? : MatchError → Option String
  | .invalidCompiledCode cause => some s!"invalid compiled code: {cause.reason}"
  | .referenceOutOfBounds kind id span codeLength =>
    some <|
      s!"{kind.name} reference {id} [{span.start}..{span.stop}) is out of code bounds " ++
      s!"(code length is {codeLength})"
  | .invalidLibraryPlaceholder id offset placeholder =>
    some s!"invalid library placeholder for {id} at offset {offset}: {placeholder}"
  | .invalidAbi => none
  | .codeLengthMismatch expected found =>
    some <| "code and code with modified metadata lengths mismatch: " ++
      s!"Expected {expected}, found {found}"
  | .auxdataNotFound offset =>
    some s!"failed to parse cbor auxdata containing offset {offset}"

end MatchError

def Span.checkedWithin (span : Span) (kind : ReferenceKind) (id : String)
    (codeLength : Nat) :
    Except MatchError Unit :=
  if span.Within codeLength then .ok ()
  else .error (.referenceOutOfBounds kind id span codeLength)

theorem Span.checkedWithin_eq_ok_iff {span : Span} {kind : ReferenceKind} {id : String}
    {codeLength : Nat} :
    span.checkedWithin kind id codeLength = .ok () ↔ span.Within codeLength := by
  simp only [Span.checkedWithin]
  split <;> simp_all

end ContractCode
