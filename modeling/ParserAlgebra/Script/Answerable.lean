import ParserAlgebra.Value.Printer

/-!
# Script/Answerable — what an answer can show

An answer shows a value with all it holds, and so more than the written form does: the elements of
an iterable, and the declarations of parsers and mappers.  A stray cursor cannot be shown, wherever
it is found.
-/

namespace ParserAlgebra.Value

variable {P : Type}

mutual

/-- **Whether an answer can show a value.** -/
def isAnswerable : Value P → Bool
  | list xs _ => allAnswerable xs
  | tuple xs _ => allAnswerable xs
  | composite xs _ => allAnswerable xs
  | iterable xs _ => allAnswerable xs
  | present x _ => x.isAnswerable
  | stray _ _ _ => false
  | success v n _ => v.isAnswerable && n.isAnswerable
  | callable (.parser ⟨name, some declared, _, _⟩) _ => name.isAnswerable && declared.isAnswerable
  | callable (.parser ⟨name, none, _, _⟩) _ => name.isAnswerable
  | callable (.mapper (.total _ (some declared))) _ => declared.isAnswerable
  | callable (.mapper (.fallible _ (some declared))) _ => declared.isAnswerable
  | report ⟨some message, _, _, _⟩ _ => message.isWritable
  | _ => true

def allAnswerable : List (Value P) → Bool
  | [] => true
  | x :: xs => x.isAnswerable && allAnswerable xs

end

/-- A text can always be shown. -/
@[simp] theorem isAnswerable_text (s : String) (identity : Identity) :
    (text s identity : Value P).isAnswerable = true := rfl

end ParserAlgebra.Value
