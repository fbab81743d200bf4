import Isa16.Encoding.Operation
import Std.Data.ExtTreeMap.Basic
import Std.Data.ExtTreeMap.Lemmas

/-!
# Instruction sets

* `InstructionSet`: operations in declaration order, with a table that finds the candidates for a
  word by the bits that every operation fixes.
* `InstructionSet.lookup?`: the most specific operation that matches a word; among equally specific
  ones the first declared.
* `Declaration`, `InstructionSet.ofDeclarations`: sets built from operations, unchecked
  specifications and operations made on demand.
-/

namespace Isa16

/-- An operation with its position in the set. -/
structure Candidate where
  index : Nat
  operation : Operation
  deriving DecidableEq

/-- The operations with their positions. -/
def numbered (operations : List Operation) : List Candidate :=
  operations.zipIdx.map fun (op, index) => ⟨index, op⟩

/-- The candidates for a dispatch key, most specific first. -/
abbrev Bucket := List Candidate

/-- Puts a candidate behind those that are at least as specific. -/
def Bucket.insert (c : Candidate) : Bucket → Bucket
  | [] => [c]
  | d :: rest =>
    if d.operation.specificity < c.operation.specificity then c :: d :: rest
    else d :: Bucket.insert c rest

/-- The bits that all of the operations fix; all bits if there is no operation. -/
def commonBits (operations : List Operation) : Word :=
  operations.foldl (fun bits op => bits &&& op.fixed.mask) (BitVec.allOnes 16)

/-- The bits of `word` under `mask`, right-aligned. -/
def keyUnder (mask word : Word) : Word :=
  (word &&& mask) >>> Bits.lowest mask

/-- Buckets by dispatch key. -/
abbrev DispatchTable := Std.ExtTreeMap Word Bucket

namespace DispatchTable

/-- The bucket of a key, empty if the key has none. -/
def bucket (table : DispatchTable) (key : Word) : Bucket :=
  table.getD key []

/-- Adds a candidate to the bucket of its opcode's key. -/
def insertCandidate (mask : Word) (table : DispatchTable) (c : Candidate) : DispatchTable :=
  let key := keyUnder mask c.operation.opcode
  table.insert key ((bucket table key).insert c)

/-- The table of the operations, numbered in order, for a common mask. -/
def ofOperations (mask : Word) (operations : List Operation) : DispatchTable :=
  (numbered operations).foldl (insertCandidate mask) ∅

end DispatchTable

/-- A collection of operations with its dispatch table. -/
structure InstructionSet where
  operations : List Operation
  mask : Word
  table : DispatchTable
  mask_eq : mask = commonBits operations := by rfl
  table_eq : table = DispatchTable.ofOperations mask operations := by rfl

/-- Any of the ways to hand an operation to an instruction set. -/
inductive Declaration
  | operation (op : Operation)
  | spec (spec : OperationSpec)
  | deferred (build : Unit → Except EncodingError Operation)

/-- The operation that the declaration stands for. -/
def Declaration.toOperation : Declaration → Except EncodingError Operation
  | operation op => .ok op
  | spec s => Operation.ofSpec s
  | deferred build => build ()

namespace InstructionSet

/-- The set of the operations in this order. -/
def ofList (operations : List Operation) : InstructionSet where
  operations
  mask := commonBits operations
  table := DispatchTable.ofOperations (commonBits operations) operations

/-- The set of the declarations' operations; the first fault is reported. -/
def ofDeclarations (declarations : List Declaration) : Except EncodingError InstructionSet :=
  (declarations.mapM Declaration.toOperation).map ofList

/-- The operations with their positions. -/
def candidates (s : InstructionSet) : List Candidate :=
  numbered s.operations

/-- The number of operations. -/
def size (s : InstructionSet) : Nat :=
  s.operations.length

/-- There is no operation. -/
def isEmpty (s : InstructionSet) : Bool :=
  s.operations.isEmpty

/-- How far the common bits are from the right. -/
def shift (s : InstructionSet) : Nat :=
  Bits.lowest s.mask

/-- The dispatch key of a word. -/
def key (s : InstructionSet) (word : Word) : Word :=
  keyUnder s.mask word

/-- The candidates for a dispatch key, most specific first. -/
def bucket (s : InstructionSet) (key : Word) : Bucket :=
  s.table.bucket key

/-- The candidate that a word stands for. -/
def lookup? (s : InstructionSet) (word : Word) : Option Candidate :=
  (s.bucket (s.key word)).find? (·.operation.matchesWord word)

/-- The operations with a mnemonic, in declaration order. -/
def withMnemonic (s : InstructionSet) (mnemonic : String) : List Operation :=
  s.operations.filter (·.mnemonic = mnemonic)

end InstructionSet

end Isa16
