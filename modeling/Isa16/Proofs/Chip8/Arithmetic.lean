import Isa16.Proofs.Chip8.Running

/-!
# CHIP-8 arithmetic on registers

* `arithmetic?`: the result and the flag of the operations on two registers.
* `written`: the registers with a result and its flag. The flag is written last.
* **`call_arithmetic`**: the routines of these operations compute this from the registers as they
  were, whatever else the machine state holds.
-/

namespace Isa16.Chip8

/-- A flag as a byte. -/
def flagByte (f : Bool) : Byte :=
  BitVec.ofNat 8 f.toNat

/-- The result of an operation on two registers and, where it has one, the flag. -/
def arithmetic? (opcode : Nat) (a b : Byte) : Option (Byte × Option Bool) :=
  match opcode with
  | 0x8000 => some (b, none)
  | 0x8001 => some (a ||| b, none)
  | 0x8002 => some (a &&& b, none)
  | 0x8003 => some (a ^^^ b, none)
  | 0x8004 => some (a + b, some (256 ≤ a.toNat + b.toNat))
  | 0x8005 => some (a - b, some (b.toNat ≤ a.toNat))
  | 0x8006 => some (a >>> 1, some (a.toNat % 2 = 1))
  | 0x8007 => some (b - a, some (a.toNat ≤ b.toNat))
  | 0x800e => some (a <<< 1, some (128 ≤ a.toNat))
  | _ => none

/-- The registers with a result in one of them, and then with the flag in the last. -/
def written (v : Vector Byte 16) (x : BitVec 4) : Byte × Option Bool → Vector Byte 16
  | (result, none) => v.setIfInBounds x.toNat result
  | (result, some flag) => (v.setIfInBounds x.toNat result).setIfInBounds 15 (flagByte flag)

/-! ## Values -/

theorem ofWord_flagByte (f : Bool) : Value.ofWord (flagByte f) = .ofNat f.toNat := by
  cases f <;> rfl

theorem run_add8 (a b : Byte) : Helper.add8.run Helper.add8.name [.ofWord a, .ofWord b] =
    .ok (.ofWord (a + b)) := by
  rw [← Bits.add_value]
  exact onWords_ofWord (by decide) _ _ a b

theorem run_sub8 (a b : Byte) : Helper.sub8.run Helper.sub8.name [.ofWord a, .ofWord b] =
    .ok (.ofWord (a - b)) := by
  rw [← Bits.sub_value]
  exact onWords_ofWord (by decide) _ _ a b

theorem run_carry8 (a b : Byte) : Helper.carry8.run Helper.carry8.name [.ofWord a, .ofWord b] =
    .ok (.ofWord (flagByte (256 ≤ a.toNat + b.toNat))) := by
  have hcarry : (Bits.add a b).overflow = decide (256 ≤ a.toNat + b.toNat) := Bits.add_overflow a b
  rw [ofWord_flagByte, ← hcarry]
  exact onWords_ofWord (by decide) _ _ a b

theorem run_borrow8 (a b : Byte) : Helper.borrow8.run Helper.borrow8.name [.ofWord a, .ofWord b] =
    .ok (.ofWord (flagByte (a.toNat < b.toNat))) := by
  rw [ofWord_flagByte, ← Bits.sub_overflow]
  exact onWords_ofWord (by decide) _ _ a b

theorem run_shr8 (a : Byte) {n : Byte} (hn : n.toNat < 8) :
    Helper.shr8.run Helper.shr8.name [.ofWord a, .ofWord n] = .ok (.ofWord (a >>> n.toNat)) := by
  have hshift : Bits.shiftRight a n.toNat = a >>> n.toNat := if_pos hn
  rw [← hshift]
  exact onWordCount_ofWord (by decide) _ _ a (by omega)

theorem run_shl8 (a : Byte) {n : Byte} (hn : n.toNat < 8) :
    Helper.shl8.run Helper.shl8.name [.ofWord a, .ofWord n] = .ok (.ofWord (a <<< n.toNat)) := by
  have hshift : Bits.shiftLeft a n.toNat = a <<< n.toNat := if_pos hn
  rw [← hshift]
  exact onWordCount_ofWord (by decide) _ _ a (by omega)

/-- One less the borrow is the flag of a difference. -/
theorem apply_sub_borrow (a b : Byte) : BinaryOp.sub.apply (.ofWord (1 : Byte))
    (.ofWord (flagByte (a.toNat < b.toNat))) = .ok (.ofWord (flagByte (b.toNat ≤ a.toNat))) := by
  rcases Nat.lt_or_ge a.toNat b.toNat with h | h
  · simp [h, Nat.not_le.mpr h]
    rfl
  · simp [h, Nat.not_lt.mpr h]
    rfl

theorem and_one (a : Byte) : a &&& 1 = flagByte (a.toNat % 2 = 1) := by
  apply BitVec.eq_of_toNat_eq
  rw [BitVec.toNat_and]
  show a.toNat &&& 1 = _
  rw [Nat.and_one_is_mod, flagByte, BitVec.toNat_ofNat]
  rcases Nat.mod_two_eq_zero_or_one a.toNat with h | h <;> simp [h]

theorem shiftRight_seven (a : Byte) : a >>> (7 : Byte).toNat = flagByte (128 ≤ a.toNat) := by
  apply BitVec.eq_of_toNat_eq
  rw [BitVec.toNat_ushiftRight, Nat.shiftRight_eq_div_pow, flagByte, BitVec.toNat_ofNat]
  show a.toNat / 128 = _
  have ha := a.isLt
  rcases Nat.lt_or_ge a.toNat 128 with h | h
  · simp [Nat.not_le.mpr h, Nat.div_eq_of_lt h]
  · simp [h]
    omega

/-! ## Routines -/

section

variable {c : Cells} {ops : List Value} {v : Vector Byte 16} {x y : BitVec 4}

theorem call_setX {value : Formula} {b : Byte} {label : String}
    (hx : ops[0]? = some (.ofWord x)) (hV : c.get? "V" = some (wordCell v))
    (hvalue : value.code.eval.Ends c ops (.ok (.ofWord b)) c) :
    (Routine.mk label 1 ([Command.setX value].map Command.action)).call c ops =
      ⟨.ok (), c.put "V" (wordCell (v.setIfInBounds x.toNat b)), ops⟩ :=
  Routine.call_of_ends (ends_runAll_singleton (ends_setX hx hvalue hV))

/-- **The routines of the operations on two registers.** -/
theorem call_arithmetic {opcode : Word} {cs : List Command} {out : Byte × Option Bool}
    (label : String) (hcs : commands? opcode = some cs)
    (hout : arithmetic? opcode.toNat (v.get x.toFin) (v.get y.toFin) = some out)
    (hx : ops[0]? = some (.ofWord x)) (hy : ops[1]? = some (.ofWord y))
    (hV : c.get? "V" = some (wordCell v)) :
    (Routine.mk label 1 (cs.map Command.action)).call c ops =
      ⟨.ok (), c.put "V" (wordCell (written v x out)), ops⟩ := by
  have hxv : Term.x.code.eval.Ends c ops (.ok (.ofWord (v.get x.toFin))) c := ends_register hV hx
  have hyv : Term.y.code.eval.Ends c ops (.ok (.ofWord (v.get y.toFin))) c := ends_register hV hy
  unfold arithmetic? at hout
  unfold commands? at hcs
  generalize opcode.toNat = n at hout hcs
  split at hout <;> cases hout <;> cases hcs
  case h_1 => exact call_setX hx hV hyv
  case h_2 => exact call_setX hx hV (ends_joined hxv rfl hyv (apply_bitOr _ _))
  case h_3 => exact call_setX hx hV (ends_joined hxv rfl hyv (apply_bitAnd _ _))
  case h_4 => exact call_setX hx hV (ends_joined hxv rfl hyv (apply_bitXor _ _))
  case h_5 =>
    exact call_flagged hx hV (ends_helper hxv hyv (run_carry8 _ _))
      (ends_helper hxv hyv (run_add8 _ _))
  case h_6 =>
    have hborrow := ends_helper hxv hyv (run_borrow8 _ _)
    exact call_flagged hx hV (ends_joined (ends_byte 1) rfl hborrow (apply_sub_borrow _ _))
      (ends_helper hxv hyv (run_sub8 _ _))
  case h_7 =>
    have hflag := apply_bitAnd (v.get x.toFin) 1
    rw [and_one] at hflag
    exact call_flagged hx hV (ends_joined hxv rfl (ends_byte 1) hflag)
      (ends_helper hxv (ends_byte 1) (run_shr8 _ (by decide)))
  case h_8 =>
    have hborrow := ends_helper hyv hxv (run_borrow8 _ _)
    exact call_flagged hx hV (ends_joined (ends_byte 1) rfl hborrow (apply_sub_borrow _ _))
      (ends_helper hyv hxv (run_sub8 _ _))
  case h_9 =>
    have hflag := run_shr8 (v.get x.toFin) (n := 7) (by decide)
    rw [shiftRight_seven] at hflag
    exact call_flagged hx hV (ends_helper hxv (ends_byte 7) hflag)
      (ends_helper hxv (ends_byte 1) (run_shl8 _ (by decide)))

end

end Isa16.Chip8
