import Isa16.Decoding.Listing
import Isa16.Proofs.Decoding.Shadowing

/-!
# Listings of byte streams

* `bytesOfWord`: the bytes that a word is made of.
* `length_wordsOfBytes`, `getElem?_wordsOfBytes`, `flatMap_bytesOfWord`, `wordsOfBytes_append`: the
  words of a stream of bytes.
* `getElem?_rowsFrom`, `rowsFrom_append`: rows stand where their words do.
* `ListingRow.Shows`: a row shows what its word stands for. No mnemonic is mistaken for the mark of
  a word that is no instruction (`mnemonic_ne_unknown`).
* **`listing_faithful`**: a listing shows the bytes of a stream, all of them but an odd last one.
-/

namespace Isa16

/-! ## Words of bytes -/

/-- The bytes of a word, high byte first. -/
def bytesOfWord (word : Word) : List Byte :=
  [word.extractLsb' 8 8, word.extractLsb' 0 8]

theorem bytesOfWord_append (high low : Byte) : bytesOfWord (high ++ low) = [high, low] := by
  have hhigh : (high ++ low).extractLsb' 8 8 = high := BitVec.extractLsb'_append_eq_left
  have hlow : (high ++ low).extractLsb' 0 8 = low := BitVec.extractLsb'_append_eq_right
  show [_, _] = _
  rw [hhigh, hlow]

theorem toNat_append_byte (high low : Byte) :
    (high ++ low : BitVec (8 + 8)).toNat = 256 * high.toNat + low.toNat := by
  rw [BitVec.toNat_append, ← Nat.shiftLeft_add_eq_or_of_lt low.isLt, Nat.shiftLeft_eq]
  omega

theorem length_wordsOfBytes : ∀ bytes, (wordsOfBytes bytes).length = bytes.length / 2
  | [] => rfl
  | [_] => by simp [wordsOfBytes]
  | high :: low :: rest => by
    have ih := length_wordsOfBytes rest
    simp only [wordsOfBytes, List.length_cons]
    omega

theorem getElem?_wordsOfBytes : ∀ {bytes : List Byte} {i : Nat} {word : Word},
    (wordsOfBytes bytes)[i]? = some word → ∃ high low, bytes[2 * i]? = some high ∧
      bytes[2 * i + 1]? = some low ∧ word = high ++ low
  | [], _, _, h | [_], _, _, h => by cases h
  | high :: low :: rest, 0, word, h => ⟨high, low, rfl, rfl, (Option.some_inj.mp h).symm⟩
  | _ :: _ :: rest, i + 1, word, h => @getElem?_wordsOfBytes rest i word h

/-- Written back, the words are the bytes, without an odd last one. -/
theorem flatMap_bytesOfWord : ∀ bytes : List Byte,
    (wordsOfBytes bytes).flatMap bytesOfWord = bytes.take (2 * (bytes.length / 2))
  | [] => rfl
  | [_] => by simp [wordsOfBytes]
  | high :: low :: rest => by
    have hlength : 2 * ((rest.length + 1 + 1) / 2) = 2 * (rest.length / 2) + 1 + 1 := by omega
    rw [wordsOfBytes, List.flatMap_cons, bytesOfWord_append, flatMap_bytesOfWord rest]
    simp only [List.length_cons, hlength, List.take_succ_cons, List.cons_append, List.nil_append]

theorem wordsOfBytes_append : ∀ {p : List Byte} (q : List Byte), Even p.length →
    wordsOfBytes (p ++ q) = wordsOfBytes p ++ wordsOfBytes q
  | [], q, _ => rfl
  | [_], q, h => absurd h Nat.not_even_one
  | high :: low :: rest, q, h => by
    have hrest : Even rest.length := by
      rw [List.length_cons, List.length_cons] at h
      rwa [Nat.even_add_one, Nat.even_add_one, not_not] at h
    simp only [List.cons_append, wordsOfBytes, wordsOfBytes_append q hrest]

/-! ## Rows -/

namespace InstructionSet

variable (s : InstructionSet)

theorem length_rowsFrom (address : Nat) (words : List Word) :
    (s.rowsFrom address words).length = words.length := by
  induction words generalizing address with
  | nil => rfl
  | cons word words ih => rw [rowsFrom, List.length_cons, List.length_cons, ih]

theorem getElem?_rowsFrom (address : Nat) (words : List Word) (i : Nat) :
    (s.rowsFrom address words)[i]? = words[i]?.map (ListingRow.ofWord s (address + 2 * i)) := by
  induction words generalizing address i with
  | nil => rfl
  | cons word words ih =>
    cases i with
    | zero => rfl
    | succ i =>
      rw [rowsFrom, List.getElem?_cons_succ, List.getElem?_cons_succ, ih]
      congr 2
      omega

theorem rowsFrom_append (address : Nat) (front back : List Word) :
    s.rowsFrom address (front ++ back) =
      s.rowsFrom address front ++ s.rowsFrom (address + 2 * front.length) back := by
  induction front generalizing address with
  | nil => rfl
  | cons word front ih =>
    have haddress : address + 2 + 2 * front.length = address + 2 * (front.length + 1) := by omega
    rw [List.cons_append, rowsFrom, rowsFrom, ih, haddress, List.length_cons, List.cons_append]

end InstructionSet

theorem ofWord_word (s : InstructionSet) (address : Nat) (word : Word) :
    (ListingRow.ofWord s address word).word = word := by
  unfold ListingRow.ofWord
  split <;> rfl

theorem ofWord_address (s : InstructionSet) (address : Nat) (word : Word) :
    (ListingRow.ofWord s address word).address = address := by
  unfold ListingRow.ofWord
  split <;> rfl

theorem map_word_rowsFrom (s : InstructionSet) (address : Nat) (words : List Word) :
    (s.rowsFrom address words).map ListingRow.word = words := by
  induction words generalizing address with
  | nil => rfl
  | cons word words ih => rw [InstructionSet.rowsFrom, List.map_cons, ofWord_word, ih]

/-! ## Mnemonics -/

theorem mnemonic_ne_unknown (op : Operation) : op.mnemonic ≠ "unknown" := by
  intro h
  have hmnemonic := op.isMnemonic_mnemonic
  rw [h] at hmnemonic
  exact absurd hmnemonic (by decide)

/-- The row marks its word as unknown if no operation matches it, and else it shows the mnemonic
and the operands of the instruction that the word stands for. -/
structure ListingRow.Shows (s : InstructionSet) (row : ListingRow) : Prop where
  unknown_iff : row.mnemonic = "unknown" ↔ ∀ op ∈ s.operations, op.matchesWord row.word = false
  decoded : ∀ op ∈ s.operations, op.matchesWord row.word = true → ∃ i,
    s.decode? row.word = some i ∧ row.mnemonic = i.operation.mnemonic ∧
      row.operands = i.operandTexts

theorem InstructionSet.decode?_eq_none_iff {s : InstructionSet} {word : Word} :
    s.decode? word = none ↔ ∀ op ∈ s.operations, op.matchesWord word = false := by
  rw [decode?, Option.map_eq_none_iff, lookup?_eq_none_iff]
  constructor
  · intro h op hop
    obtain ⟨i, hi⟩ := List.mem_iff_getElem?.mp hop
    exact h ⟨i, op⟩ (mem_numbered.mpr hi)
  · intro h c hc
    exact h _ (operation_mem_of_mem_numbered hc)

theorem shows_ofWord (s : InstructionSet) (address : Nat) (word : Word) :
    (ListingRow.ofWord s address word).Shows s := by
  have hnone : s.decode? word = none ↔ ∀ op ∈ s.operations, op.matchesWord word = false :=
    InstructionSet.decode?_eq_none_iff
  rw [ListingRow.ofWord]
  cases hi : s.decode? word with
  | none =>
    have hunmatched := hnone.mp hi
    refine ⟨⟨fun _ => hunmatched, fun _ => rfl⟩, fun op hop hmatch => ?_⟩
    rw [hunmatched op hop] at hmatch
    cases hmatch
  | some i =>
    refine ⟨⟨fun h => absurd h (mnemonic_ne_unknown _), fun h => ?_⟩, fun _ _ _ =>
      ⟨i, hi, rfl, rfl⟩⟩
    rw [hnone.mpr h] at hi
    cases hi

/-! ## Listings -/

/-- **A listing is faithful to the bytes.** It has a row for every two bytes, at their address and
with the word that they form, which it shows as the set of operations decodes it. The words make up
the bytes again, and the listing of a stream that is cut between words is that of its parts. -/
theorem listing_faithful (s : InstructionSet) (bytes : List Byte) (base : Nat)
    (hbase : base + bytes.length < 2 ^ 64) :
    (s.listing bytes base).length = bytes.length / 2 ∧
      (∀ i row, (s.listing bytes base)[i]? = some row →
        row.address = base + 2 * i ∧ row.address < 2 ^ 64 ∧
        (∃ high low, bytes[2 * i]? = some high ∧ bytes[2 * i + 1]? = some low ∧
          row.word.toNat = 256 * high.toNat + low.toNat) ∧
        row.Shows s) ∧
      (s.listing bytes base).flatMap (fun row => bytesOfWord row.word) =
        bytes.take (2 * (bytes.length / 2)) ∧
      ∀ p q, bytes = p ++ q → Even p.length →
        s.listing bytes base = s.listing p base ++ s.listing q (base + p.length) := by
  refine ⟨?_, fun i row hrow => ?_, ?_, ?_⟩
  · rw [InstructionSet.listing, InstructionSet.length_rowsFrom, length_wordsOfBytes]
  · rw [InstructionSet.listing, InstructionSet.getElem?_rowsFrom] at hrow
    obtain ⟨word, hword, rfl⟩ := Option.map_eq_some_iff.mp hrow
    obtain ⟨high, low, hhigh, hlow, rfl⟩ := getElem?_wordsOfBytes hword
    obtain ⟨hlt, -⟩ := List.getElem?_eq_some_iff.mp hhigh
    rw [ofWord_address, ofWord_word]
    exact ⟨rfl, by omega, ⟨high, low, hhigh, hlow, toNat_append_byte high low⟩,
      shows_ofWord s _ _⟩
  · rw [← flatMap_bytesOfWord, ← List.flatMap_map, InstructionSet.listing, map_word_rowsFrom]
  · rintro p q rfl hp
    have hlength : base + 2 * (wordsOfBytes p).length = base + p.length := by
      rw [length_wordsOfBytes, Nat.two_mul_div_two_of_even hp]
    simp only [InstructionSet.listing, wordsOfBytes_append q hp, InstructionSet.rowsFrom_append,
      hlength]

/-- A word of each operation, one that is no instruction, and an odd byte. -/
theorem listing_full_sparse :
    let s := InstructionSet.ofList [fullOperation, sparseOperation]
    let bytes : List Byte := [0x01, 0x20, 0x12, 0x34, 0x00, 0x00, 0x61]
    let rows := s.listing bytes 0x200
    0x200 + bytes.length < 2 ^ 64 ∧
      rows = [⟨0x200, 0x0120, "WIDE", ["V12"]⟩, ⟨0x202, 0x1234, "unknown", ["0x1234"]⟩,
        ⟨0x204, 0x0000, "FULL", []⟩] ∧
      rows.length = 3 ∧
      (∀ op ∈ s.operations, op.matchesWord 0x1234 = false) ∧
      rows.flatMap (fun row => bytesOfWord row.word) = [0x01, 0x20, 0x12, 0x34, 0x00, 0x00] ∧
      rows = s.listing [0x01, 0x20] 0x200 ++ s.listing [0x12, 0x34, 0x00, 0x00, 0x61] 0x202 := by
  intro s bytes rows
  have hbase : 0x200 + bytes.length < 2 ^ 64 := by decide
  have hrows : rows = [⟨0x200, 0x0120, "WIDE", ["V12"]⟩,
      ⟨0x202, 0x1234, "unknown", ["0x1234"]⟩, ⟨0x204, 0x0000, "FULL", []⟩] := by decide +kernel
  obtain ⟨hlength, hrow, hbytes, hcut⟩ := listing_faithful s bytes 0x200 hbase
  have hunknown := (hrow 1 _ (congrArg (·[1]?) hrows)).2.2.2.unknown_iff.mp rfl
  exact ⟨hbase, hrows, hlength.trans (by decide), hunknown, hbytes.trans (by decide),
    hcut [0x01, 0x20] _ rfl (by decide)⟩

end Isa16
