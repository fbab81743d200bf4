import Isa16.Bits
import Std.Data.ExtTreeMap.Basic
import Std.Data.ExtTreeMap.Lemmas

/-!
# Memos by instruction word

* `Memo`: results remembered by word. Nothing is dropped unless asked: the owner says when an
  entry is stale, usually because the program memory behind a word was written.
-/

namespace Isa16

/-- Results remembered by instruction word. -/
structure Memo (α : Type) where
  entries : Std.ExtTreeMap Word α

namespace Memo

variable {α ε : Type}

/-- The memo that remembers nothing. -/
def empty : Memo α :=
  ⟨∅⟩

instance : EmptyCollection (Memo α) :=
  ⟨empty⟩

/-- What is remembered for a word. -/
def get? (m : Memo α) (word : Word) : Option α :=
  m.entries[word]?

/-- Something is remembered for the word. -/
def contains (m : Memo α) (word : Word) : Bool :=
  m.entries.contains word

/-- The number of words with an entry. -/
def size (m : Memo α) : Nat :=
  m.entries.size

/-- Nothing is remembered. -/
def isEmpty (m : Memo α) : Bool :=
  m.entries.isEmpty

/-- Remembers a value for a word, in place of what was there. -/
def insert (m : Memo α) (word : Word) (value : α) : Memo α :=
  ⟨m.entries.insert word value⟩

/-- Forgets a word. -/
def erase (m : Memo α) (word : Word) : Memo α :=
  ⟨m.entries.erase word⟩

/-- What is remembered for a word; if nothing is, the value is built and remembered. -/
def getOrInsert (m : Memo α) (word : Word) (build : Unit → α) : α × Memo α :=
  match m.get? word with
  | some value => (value, m)
  | none =>
    let value := build ()
    (value, m.insert word value)

/-- Like `getOrInsert`, but building may fail, and then nothing is remembered. -/
def getOrTryInsert (m : Memo α) (word : Word) (build : Unit → Except ε α) :
    Except ε α × Memo α :=
  match m.get? word with
  | some value => (.ok value, m)
  | none =>
    match build () with
    | .ok value => (.ok value, m.insert word value)
    | .error e => (.error e, m)

@[simp] theorem get?_empty (w : Word) : (empty : Memo α).get? w = none := by
  simp [get?, empty]

theorem get?_insert (m : Memo α) (v w : Word) (a : α) :
    (m.insert v a).get? w = if v = w then some a else m.get? w := by
  simp [get?, insert, Std.ExtTreeMap.getElem?_insert]

theorem get?_erase (m : Memo α) (v w : Word) :
    (m.erase v).get? w = if v = w then none else m.get? w := by
  simp [get?, erase, Std.ExtTreeMap.getElem?_erase]

end Memo

end Isa16
