import Isa16.Proofs.Chip8.WellFormed

/-!
# CHIP-8 arithmetic under aliasing

A word of arithmetic names two registers. They may be the same one, and each may be the register of
the flag.

* `arithmeticWord`: the word with the two registers and the last digit.
* `computed?`: what each last digit computes, on numbers.
* `exists_arithmetic?`: the operations on bytes compute just this.
* `carryOut_arithmetic`: the words of arithmetic on registers that hold bytes.
* **`execute_arithmetic`**: the result and the flag are those of the registers as they were,
  whatever the two registers are, and nothing else changes.
-/

namespace Isa16.Chip8

open Processor

/-- The word of arithmetic on two registers, by its last digit. -/
def arithmeticWord (x y n : BitVec 4) : Word :=
  8#4 ++ x ++ y ++ n

/-- What a last digit computes from the numbers in two registers: the result and, where it has one,
the flag. -/
def computed? (n : BitVec 4) (a b : Nat) : Option (Nat × Option Bool) :=
  match n.toNat with
  | 0 => some (b, none)
  | 1 => some (a ||| b, none)
  | 2 => some (a &&& b, none)
  | 3 => some (a ^^^ b, none)
  | 4 => some ((a + b) % 256, some (255 < a + b))
  | 5 => some ((((a : Int) - b) % 256).toNat, some (b ≤ a))
  | 6 => some (a / 2, some (a % 2 = 1))
  | 7 => some ((((b : Int) - a) % 256).toNat, some (a ≤ b))
  | 14 => some (2 * a % 256, some (a / 128 = 1))
  | _ => none

/-! ## The word -/

section

variable {x y n : BitVec 4}

theorem getLsbD_arithmeticWord (i : Nat) : (arithmeticWord x y n).getLsbD i =
    if i < 4 then n.getLsbD i else if i < 8 then y.getLsbD (i - 4) else
      if i < 12 then x.getLsbD (i - 8) else (8#4).getLsbD (i - 12) := by
  show BitVec.getLsbD (8#4 ++ x ++ y ++ n) i = _
  rw [BitVec.getLsbD_append, BitVec.getLsbD_append, BitVec.getLsbD_append]
  grind

theorem digitX_arithmeticWord : digitX (arithmeticWord x y n) = x := by
  refine BitVec.eq_of_getLsbD_eq fun i hi => ?_
  rw [digitX, BitVec.getLsbD_extractLsb', getLsbD_arithmeticWord]
  simp [hi, show ¬ 8 + i < 4 by omega, show 8 + i < 12 by omega]

theorem digitY_arithmeticWord : digitY (arithmeticWord x y n) = y := by
  refine BitVec.eq_of_getLsbD_eq fun i hi => ?_
  rw [digitY, BitVec.getLsbD_extractLsb', getLsbD_arithmeticWord]
  simp [hi, show 4 + i < 8 by omega]

theorem arithmeticWord_and : arithmeticWord x y n &&& 0xf00f = arithmeticWord 0 0 n := by
  show (8#4 ++ x ++ y ++ n) &&& (0xf#4 ++ 0#4 ++ 0#4 ++ BitVec.allOnes 4) = 8#4 ++ 0#4 ++ 0#4 ++ n
  rw [BitVec.and_append, BitVec.and_append, BitVec.and_append, BitVec.and_allOnes]
  simp

theorem mem_of_computed? {a b : Nat} {out : Nat × Option Bool} (h : computed? n a b = some out) :
    n ∈ ([0, 1, 2, 3, 4, 5, 6, 7, 14] : List (BitVec 4)) := by
  have hself : n = BitVec.ofNat 4 n.toNat := by simp
  rw [hself]
  unfold computed? at h
  split at h
  case h_10 => cases h
  all_goals
    next hn =>
      rw [hn]
      decide

theorem lookup?_arithmeticWord {a b : Nat} {out : Nat × Option Bool}
    (h : computed? n a b = some out) (x y : BitVec 4) : ∃ c cs,
      instructionSet.lookup? (arithmeticWord x y n) = some c ∧
      c.operation.opcode = arithmeticWord 0 0 n ∧
      commands? (arithmeticWord 0 0 n) = some cs ∧ Layout.of (arithmeticWord 0 0 n) = .xy := by
  have htable : ∀ n ∈ ([0, 1, 2, 3, 4, 5, 6, 7, 14] : List (BitVec 4)),
      (∃ c ∈ numbered operations, c.index ≠ 0 ∧ c.operation.opcode = arithmeticWord 0 0 n ∧
        c.operation.fixed.mask = 0xf00f) ∧
      (commands? (arithmeticWord 0 0 n)).isSome = true ∧
      Layout.of (arithmeticWord 0 0 n) = .xy := by
    decide
  obtain ⟨⟨c, hc, hne, hopcode, hmask⟩, hcs, hlayout⟩ := htable n (mem_of_computed? h)
  obtain ⟨cs, hcs⟩ := Option.isSome_iff_exists.mp hcs
  refine ⟨c, cs, lookup?_of_matchesWord hc hne (matchesWord_iff.mpr ?_), hopcode, hcs, hlayout⟩
  rw [hmask, hopcode, arithmeticWord_and]

end

/-! ## Numbers -/

theorem toNat_sub_byte (a b : Byte) :
    (a - b).toNat = (((a.toNat : Int) - b.toNat) % 256).toNat := by
  have ha := a.isLt
  have hb := b.isLt
  rw [BitVec.toNat_sub]
  omega

/-- **The operations on bytes compute what their last digits say on numbers.** -/
theorem exists_arithmetic? {n : BitVec 4} {a b : Byte} {result : Nat} {flag : Option Bool}
    (h : computed? n a.toNat b.toNat = some (result, flag)) : ∃ byte : Byte,
      arithmetic? (arithmeticWord 0 0 n).toNat a b = some (byte, flag) ∧ byte.toNat = result := by
  have hn := mem_of_computed? h
  simp only [List.mem_cons, List.not_mem_nil, or_false] at hn
  rcases hn with rfl | rfl | rfl | rfl | rfl | rfl | rfl | rfl | rfl <;> cases h
  · exact ⟨b, rfl, rfl⟩
  · exact ⟨a ||| b, rfl, BitVec.toNat_or a b⟩
  · exact ⟨a &&& b, rfl, BitVec.toNat_and a b⟩
  · exact ⟨a ^^^ b, rfl, BitVec.toNat_xor a b⟩
  · exact ⟨a + b, rfl, BitVec.toNat_add a b⟩
  · exact ⟨a - b, rfl, toNat_sub_byte a b⟩
  · exact ⟨a >>> 1, rfl, BitVec.toNat_ushiftRight a 1⟩
  · exact ⟨b - a, rfl, toNat_sub_byte b a⟩
  · have ha := a.isLt
    have hflag : (128 ≤ a.toNat) = (a.toNat / 128 = 1) := by
      apply propext
      omega
    refine ⟨a <<< 1, ?_, ?_⟩
    · simp only [← hflag]
      rfl
    · rw [BitVec.toNat_shiftLeft, Nat.shiftLeft_eq, Nat.mul_comm]

/-! ## The machine state -/

section

variable {c : Cells} {v : Vector Byte 16} {x y : BitVec 4}

/-- The byte that an integer is. -/
def byteOf (v : Value) : Byte :=
  BitVec.ofInt 8 ((v.number?.map Int64.toInt).getD 0)

theorem ofWord_byteOf {k : Int64} (hlow : 0 ≤ k.toInt) (hhigh : k.toInt ≤ 255) :
    Value.ofWord (byteOf (.int k)) = .int k := by
  have hbyte : ((byteOf (.int k)).toNat : Int) = k.toInt := by
    show ((BitVec.ofInt 8 k.toInt).toNat : Int) = k.toInt
    rw [BitVec.toNat_ofInt]
    omega
  refine congrArg Value.int (Int64.toInt_inj.mp ?_)
  rw [toInt_ofNat_toNat (by decide), hbyte]

theorem exists_bytes (h : HoldsInts c "V" 255) :
    ∃ v : Vector Byte 16, c.get? "V" = some (wordCell v) :=
  h.exists_wordCell fun k hlow hhigh => ⟨byteOf (.int k), (ofWord_byteOf hlow hhigh).symm⟩

theorem element?_words (hV : c.get? "V" = some (wordCell v)) (i : Nat) :
    c.element? "V" i = v[i]?.map Value.ofWord := by
  rw [Cells.element?_of_array hV]
  simp

theorem map_getElem?_setIfInBounds (u : Vector Byte 16) {k : Nat} (hk : k < 16) (b : Byte)
    (i : Nat) : (u.setIfInBounds k b)[i]?.map Value.ofWord =
      if i = k then some (.ofWord b) else u[i]?.map Value.ofWord := by
  rw [Vector.getElem?_setIfInBounds, if_pos hk, apply_ite (Option.map Value.ofWord),
    Option.map_some]
  simp only [eq_comm (a := i)]

theorem getElem?_written (x : BitVec 4) (byte : Byte) (flag : Option Bool) (i : Nat) :
    (written v x (byte, flag))[i]?.map Value.ofWord =
      if i = 15 ∧ flag.isSome then flag.map fun f => .ofNat f.toNat
      else if i = x.toNat then some (.ofWord byte) else v[i]?.map Value.ofWord := by
  have hresult := map_getElem?_setIfInBounds v x.isLt byte i
  cases flag with
  | none => simpa [written] using hresult
  | some f =>
    rw [written, map_getElem?_setIfInBounds _ (by decide), hresult, ofWord_flagByte]
    simp

/-- **The words of arithmetic**, on bytes. -/
theorem carryOut_arithmetic {fresh : Processor Cells} (hfresh : processor = .ok fresh)
    (hV : c.get? "V" = some (wordCell v)) {n : BitVec 4} {result : Nat} {flag : Option Bool}
    (h : computed? n (v.get x.toFin).toNat (v.get y.toFin).toNat = some (result, flag)) :
    ∃ mnemonic byte, byte.toNat = result ∧
      carryOut (arithmeticWord x y n) (fresh.decode? (arithmeticWord x y n)) c =
        (.ok (.executed (arithmeticWord x y n) mnemonic),
          c.put "V" (wordCell (written v x (byte, flag)))) := by
  obtain ⟨cand, cs, hl, hopcode, hcs, hlayout⟩ := lookup?_arithmeticWord h x y
  obtain ⟨label, hdecode⟩ := decode?_processor hfresh hl
  obtain ⟨byte, hout, hbyte⟩ := exists_arithmetic? h
  refine ⟨cand.operation.mnemonic, byte, hbyte, ?_⟩
  have hvalues := Layout.decode_operation (operation_mem_of_lookup? hl) (hopcode ▸ hcs)
    (arithmeticWord x y n)
  rw [hopcode, hlayout, Layout.values, digitX_arithmeticWord, digitY_arithmeticWord] at hvalues
  rw [hdecode, hopcode, hcs]
  dsimp only [Option.map_some, carryOut, Instruction.values]
  rw [hvalues, call_arithmetic label hcs hout rfl rfl hV]
  rfl

end

/-- **The words of arithmetic compute from the registers as they were**, whatever two registers they
name. The flag is written last, and nothing else changes. -/
theorem execute_arithmetic (requests : List (Request Cells)) {c : Cells}
    (hc : HoldsInts c "V" 255) (x y : BitVec 4) :
    ∃ fresh : Processor Cells, processor = .ok fresh ∧ ∃ a b : Byte,
      c.element? "V" x.toNat = some (.ofWord a) ∧ c.element? "V" y.toNat = some (.ofWord b) ∧
      ∀ n result flag, computed? n a.toNat b.toNat = some (result, flag) →
        let word := arithmeticWord x y n
        let execution := (fresh.after requests).execute word c
        (∃ mnemonic, execution.outcome = .ok (.executed word mnemonic)) ∧
        (∀ name, name ≠ "V" → execution.state.get? name = c.get? name) ∧
        ∀ i, execution.state.element? "V" i =
          if i = 15 ∧ flag.isSome then flag.map fun f => .ofNat f.toNat
          else if i = x.toNat then some (.ofNat result) else c.element? "V" i := by
  obtain ⟨fresh, hfresh⟩ := exists_processor (σ := Cells)
  obtain ⟨v, hV⟩ := exists_bytes hc
  have hregister : ∀ k : BitVec 4, c.element? "V" k.toNat = some (.ofWord (v.get k.toFin)) := by
    intro k
    have hk : v[k.toNat]? = some (v.get k.toFin) := Vector.getElem?_eq_getElem k.isLt
    rw [element?_words hV, hk]
    rfl
  refine ⟨fresh, hfresh, v.get x.toFin, v.get y.toFin, hregister x, hregister y,
    fun n result flag h => ?_⟩
  intro word execution
  have hp := recalls_after (make_eq_ok_iff.mp hfresh).2.1 requests
  obtain ⟨mnemonic, byte, hbyte, hcarry⟩ := carryOut_arithmetic hfresh hV h
  have hexecution : execution = _ := execute_eq (fresh.after requests) word c
  rw [hp.decode_fst, hcarry] at hexecution
  rw [hexecution]
  refine ⟨⟨mnemonic, rfl⟩, fun name hname => ?_, fun i => ?_⟩
  · rw [Cells.get?_put, if_neg hname.symm]
  · have hresult : Value.ofWord byte = .ofNat result := congrArg Value.ofNat hbyte
    rw [element?_words (v := written v x (byte, flag)) (by rw [Cells.get?_put, if_pos rfl]),
      element?_words hV, getElem?_written, hresult]

/-- The registers all hold 200. -/
def uniform : Cells :=
  initial.put "V" (wordCell (Vector.replicate 16 (200 : Byte)))

/-- The register of the flag added to itself is left with the carry. -/
theorem execute_double_flag : ∃ fresh : Processor Cells, processor = .ok fresh ∧
    HoldsInts uniform "V" 255 ∧ computed? 4 200 200 = some (144, some true) ∧
    (∃ mnemonic, (fresh.execute 0x8ff4 uniform).outcome = .ok (.executed 0x8ff4 mnemonic)) ∧
    (fresh.execute 0x8ff4 uniform).state.element? "V" 15 = some (.ofNat 1) := by
  have hV : uniform.get? "V" = some (wordCell (Vector.replicate 16 (200 : Byte))) := by
    rw [uniform, Cells.get?_put, if_pos rfl]
  have hbytes : HoldsInts uniform "V" 255 := holdsInts_words (by decide) hV
  obtain ⟨fresh, hfresh, a, b, ha, hb, hdone⟩ := execute_arithmetic [] hbytes 15 15
  have hregister : uniform.element? "V" 15 = some (.ofWord (200 : Byte)) := element?_words hV 15
  obtain rfl : a = 200 := (ofWord_inj (by decide)).mp (Option.some.inj (ha.symm.trans hregister))
  obtain rfl : b = 200 := (ofWord_inj (by decide)).mp (Option.some.inj (hb.symm.trans hregister))
  obtain ⟨hexecuted, -, hleft⟩ := hdone 4 144 (some true) (by decide)
  exact ⟨fresh, hfresh, hbytes, by decide, hexecuted, hleft 15⟩

end Isa16.Chip8
