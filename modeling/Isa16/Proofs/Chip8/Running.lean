import Isa16.Proofs.Chip8.Commands
import Isa16.Proofs.Program.Evaluation

/-!
# How the CHIP-8 commands run

On machine states that hold words where a command looks.

* `wordCell`: words behind an array's name.
* `ends_part`, `ends_element`, `ends_helper`, `ends_joined`: the values of terms.
* `ends_set_part`, `ends_setX`, `ends_skip`: the commands on a scalar, on a register and on the
  program counter.
* `call_flagged`: the routine of a register and the flag.
-/

namespace Isa16.Chip8

/-- Words behind an array's name. -/
def wordCell {w n : Nat} (v : Vector (BitVec w) n) : Cell :=
  .array (v.toArray.map .ofWord)

section

variable {c c₁ c₂ : Cells} {ops : List Value} {u v : Value} {name : String} {w n : Nat}

/-! ## Values of terms -/

theorem getElem?_words (a : Vector (BitVec w) n) (k : Fin n) :
    (a.toArray.map Value.ofWord)[k.val]? = some (.ofWord (a.get k)) := by
  simp [Vector.get_eq_getElem]

theorem setIfInBounds_words (a : Vector (BitVec w) n) (k : Nat) (b : BitVec w) :
    (a.toArray.map Value.ofWord).setIfInBounds k (.ofWord b) =
      (a.setIfInBounds k b).toArray.map Value.ofWord := by
  simp

theorem toInt_ofNat_fin (k : Fin 16) : (Int64.ofNat k.val).toInt = k.val :=
  Int64.toInt_ofNat_of_lt (by omega)

theorem ends_byte (n : Byte) : (Term.byte n).code.eval.Ends c ops (.ok (.ofWord n)) c :=
  ends_literal _

theorem ends_part {h : IsField name} (hv : c.get? name = some (.scalar v)) :
    (Term.part name h).code.eval.Ends c ops (.ok v) c := by
  refine ends_read_context (ends_context (ends_evalKeys_cons (ends_literal _) rfl
    ends_evalKeys_nil)) ?_
  show Effect.ofExcept (c.load _) c = _
  rw [Cells.load_scalar hv]

theorem operandPosition_ofNat {k count : Nat} (h : k < count) (hk : k < 2 ^ 63) :
    operandPosition (Int64.ofNat k) count = .ok k := by
  rw [operandPosition, Int64.toInt_ofNat_of_lt hk, Int.mem_toNat?.mpr rfl]
  exact if_pos h

theorem ends_operandTerm {i : Fin 2} (h : ops[i.val]? = some v) :
    (Term.operand i).code.eval.Ends c ops (.ok v) c := by
  obtain ⟨hlt, -⟩ := List.getElem?_eq_some_iff.mp h
  exact ends_read_operand (ends_operand (ends_literal _) rfl
    (operandPosition_ofNat hlt (by omega))) h

theorem ends_elementKeys {array : String} {index : Term} {i : Int64}
    (hi : index.code.eval.Ends c ops (.ok (.int i)) c) :
    (Place.context [.literal (.text array), index.code] : Place Cells 1).locate.Ends c ops
      (.ok (.context [.name array, .index i])) c :=
  ends_context (ends_evalKeys_cons (ends_literal _) rfl
    (ends_evalKeys_cons hi rfl ends_evalKeys_nil))

theorem ends_element {array : String} {index : Term} {h : IsField array} {i : Int64} {k : Fin n}
    {a : Vector (BitVec w) n} (hi : index.code.eval.Ends c ops (.ok (.int i)) c)
    (hik : i.toInt = k.val) (ha : c.get? array = some (wordCell a)) :
    (Term.element array index h).code.eval.Ends c ops (.ok (.ofWord (a.get k))) c := by
  refine ends_read_context (ends_elementKeys hi) ?_
  show Effect.ofExcept (c.load _) c = _
  rw [Cells.load_element ha hik (getElem?_words a k)]

/-- An index that is not one of the array's. -/
theorem ends_element_error {array : String} {index : Term} {h : IsField array} {i : Int64}
    {a : Vector (BitVec w) n} (hi : index.code.eval.Ends c ops (.ok (.int i)) c)
    (hik : ∀ k : Nat, i.toInt = k → n ≤ k) (ha : c.get? array = some (wordCell a)) :
    (Term.element array index h).code.eval.Ends c ops
      (.error (.unknownPath [.name array, .index i])) c := by
  refine ends_read_context (ends_elementKeys hi) ?_
  show Effect.ofExcept (c.load _) c = _
  rw [Cells.load_element_error ha (by simpa using hik)]

theorem ends_helper {f : Helper} {a b : Term} {r : Value} (ha : a.code.eval.Ends c ops (.ok u) c)
    (hb : b.code.eval.Ends c ops (.ok v) c) (hf : f.run f.name [u, v] = .ok r) :
    (Term.call f a b).code.eval.Ends c ops (.ok r) c := by
  refine ends_call (ends_evalAll_cons ha (ends_evalAll_cons hb ends_evalAll_nil)) ?_
  show Effect.ofExcept (f.run f.name [u, v]) c = _
  rw [hf]
  rfl

/-- An operator that looks at both sides. -/
theorem ends_joined {s : Symbol} {op : BinaryOp} {a b : Term} {h : BinaryOp.ofSymbol? s = some op}
    {r : Value} (ha : a.code.eval.Ends c ops (.ok u) c₁) (hsettle : op.settle? u = .ok none)
    (hb : b.code.eval.Ends c₁ ops (.ok v) c₁) (happly : op.apply u v = .ok r) :
    (Formula.joined s op a b h).code.eval.Ends c ops (.ok r) c₁ :=
  ends_binary ha hsettle hb happly

/-! ## Stores -/

theorem store_scalar (h : c.get? name = some (.scalar u)) :
    MachineState.store [.name name] v c = .ok () (c.setScalar name v) :=
  Cells.store_of_ok (Cells.store_scalar h)

theorem store_element {i : Int64} {k : Fin n} {a : Vector (BitVec w) n} {b : BitVec w}
    (hik : i.toInt = k.val) (ha : c.get? name = some (wordCell a)) :
    MachineState.store [.name name, .index i] (.ofWord b) c =
      .ok () (c.put name (wordCell (a.setIfInBounds k b))) := by
  rw [wordCell, ← setIfInBounds_words]
  exact Cells.store_of_ok (Cells.store_element ha hik (by simp))

theorem store_element_error {i : Int64} {a : Vector (BitVec w) n}
    (hik : ∀ k : Nat, i.toInt = k → n ≤ k) (ha : c.get? name = some (wordCell a)) :
    MachineState.store [.name name, .index i] v c =
      .error (.unknownPath [.name name, .index i]) c :=
  Cells.store_of_error (Cells.store_element_error ha (by simpa using hik))

theorem ends_set_part {h : IsField name} {e : Formula}
    (he : e.code.eval.Ends c ops (.ok v) c) (hu : c.get? name = some (.scalar u)) :
    (Command.set (.part name h) e).action.run.Ends c ops (.ok ()) (c.setScalar name v) :=
  ends_assign (ends_context (ends_evalKeys_cons (ends_literal _) rfl ends_evalKeys_nil)) he
    (store_scalar hu)

/-! ## Registers -/

section

variable {a : Vector Byte 16} {x y : BitVec 4} {b : Byte}

theorem ends_register {i : Fin 2} (hV : c.get? "V" = some (wordCell a))
    (hx : ops[i.val]? = some (.ofWord x)) :
    (Term.element "V" (.operand i)).code.eval.Ends c ops (.ok (.ofWord (a.get x.toFin))) c :=
  ends_element (ends_operandTerm hx) (toInt_ofNat_fin x.toFin) hV

theorem ends_setX {e : Formula} (hx : ops[0]? = some (.ofWord x))
    (he : e.code.eval.Ends c ops (.ok (.ofWord b)) c₁)
    (hV : c₁.get? "V" = some (wordCell a)) :
    (Command.setX e).action.run.Ends c ops (.ok ())
      (c₁.put "V" (wordCell (a.setIfInBounds x.toNat b))) :=
  ends_assign (ends_elementKeys (ends_operandTerm (i := 0) hx)) he
    (store_element (toInt_ofNat_fin x.toFin) hV)

/-- A register and the flag. The flag is worked out before the register is written, and written
behind it. -/
theorem call_flagged {flag : Formula} {result : Term} {f : Byte} {label : String}
    (hx : ops[0]? = some (.ofWord x)) (hV : c.get? "V" = some (wordCell a))
    (hflag : flag.code.eval.Ends c ops (.ok (.ofWord f)) c)
    (hresult : result.code.eval.Ends c ops (.ok (.ofWord b)) c) :
    (Routine.mk label 1 ((Command.flagged flag result).map Command.action)).call c ops =
      ⟨.ok (), c.put "V" (wordCell ((a.setIfInBounds x.toNat b).setIfInBounds 15 f)), ops⟩ := by
  have hset := ends_setX (e := .term result) hx hresult hV
  have hV' : (c.put "V" (wordCell (a.setIfInBounds x.toNat b))).get? "V" =
      some (wordCell (a.setIfInBounds x.toNat b)) := by
    rw [Cells.get?_put, if_pos rfl]
  have hplace : (Target.flagRegister.place : Place Cells 1).locate.Ends
      (c.put "V" (wordCell (a.setIfInBounds x.toNat b))) ops
      (.ok (.context [.name "V", .index 15])) _ :=
    ends_context (ends_evalKeys_cons (ends_literal _) rfl
      (ends_evalKeys_cons (ends_literal _) rfl ends_evalKeys_nil))
  have hstore := store_element (i := 15) (k := (15 : Fin 16)) (b := f) (by decide) hV'
  rw [Cells.put_put] at hstore
  exact Routine.call_of_kept hflag hset hplace hstore

end

/-! ## Skips -/

/-- The next instruction is stepped over, or not. -/
theorem ends_skip {condition : Formula} {pc : Word} {b : Bool}
    (hcondition : condition.code.eval.Ends c ops (.ok (.bool b)) c)
    (hpc : c.get? "pc" = some (.scalar (.ofWord pc))) :
    (Command.skip condition).action.run.Ends c ops (.ok ())
      (if b then c.setScalar "pc" (.ofWord (pc + 2)) else c) := by
  refine ends_branch hcondition ?_
  cases b with
  | false => exact ends_runAll_nil
  | true =>
    have hadd : Helper.add16.run Helper.add16.name [.ofWord pc, .ofWord (2 : Byte)] =
        .ok (.ofWord (pc + 2)) := by
      rw [← Bits.add_value]
      exact onWords_ofWord (by decide) _ _ pc 2
    exact ends_runAll_singleton (ends_set_part (e := Command.skipped)
      (ends_helper (ends_part hpc) (ends_byte 2) hadd) hpc)

end

end Isa16.Chip8
