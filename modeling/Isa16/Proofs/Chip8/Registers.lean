import Isa16.Proofs.Chip8.Arithmetic

/-!
# The CHIP-8 registers

The operations that have a program, on registers that hold words.

* `Registers`: the eight parts of the machine state, each a word of its width; the stack pointer
  and the seed are integers.
* `Registers.onto`: the registers in a machine state, over whatever else it holds.
* `Registers.step`: what an operation does to the registers.
* `Layout.decode_operation`: the operands of an operation are digits of the word.
* **`Registers.completes_step`**: the routine of an operation does to the machine state what `step`
  does to the registers.
-/

namespace Isa16.Chip8

/-- The names of the parts of the machine state. -/
def partNames : List String :=
  ["V", "stack", "I", "pc", "sp", "DT", "ST", "seed"]

/-- The parts of the machine state. -/
structure Registers where
  v : Vector Byte 16
  stack : Vector Word 16
  i : Word
  pc : Word
  sp : Int64
  dt : Byte
  st : Byte
  seed : Int64

/-! ## Digits of a word -/

/-- The second digit. -/
def digitX (word : Word) : BitVec 4 :=
  word.extractLsb' 8 4

/-- The third digit. -/
def digitY (word : Word) : BitVec 4 :=
  word.extractLsb' 4 4

/-- The last two digits. -/
def lowByte (word : Word) : Byte :=
  word.extractLsb' 0 8

/-- The last three digits. -/
def lowAddress (word : Word) : Word :=
  word &&& 0x0fff

namespace Registers

/-! ## What operations do -/

/-- The place that the stack pointer names. -/
def slot? (sp : Int64) : Option (Fin 16) :=
  if h : 0 ≤ sp.toInt ∧ sp.toInt < 16 then some ⟨sp.toInt.toNat, by omega⟩ else none

variable (r : Registers)

/-- Writes a register. -/
def setV (x : BitVec 4) (b : Byte) : Registers :=
  { r with v := r.v.setIfInBounds x.toNat b }

/-- Steps over the next instruction, or not. -/
def skipIf (condition : Bool) : Registers :=
  if condition then { r with pc := r.pc + 2 } else r

/-- Returns from a subroutine. The stack pointer goes down first. -/
def ret : EStateM.Result RunError Registers Unit :=
  match slot? (r.sp - 1) with
  | some k => .ok () { r with sp := r.sp - 1, pc := r.stack.get k }
  | none => .error (.unknownPath [.name "stack", .index (r.sp - 1)]) { r with sp := r.sp - 1 }

/-- Calls a subroutine. -/
def callAt (target : Word) : EStateM.Result RunError Registers Unit :=
  match slot? r.sp with
  | some k => .ok () { r with stack := r.stack.setIfInBounds k r.pc, sp := r.sp + 1, pc := target }
  | none => .error (.unknownPath [.name "stack", .index r.sp]) r

/-- The next seed of the random numbers. -/
def seed' : Word :=
  nextSeed (BitVec.ofInt 16 r.seed.toInt)

/-- Draws a random byte under a mask. -/
def draw (x : BitVec 4) (mask : Byte) : Registers :=
  ({ r with seed := Int64.ofNat r.seed'.toNat }).setV x (r.seed'.setWidth 8 &&& mask)

/-- What an operation does. -/
def step (opcode word : Word) : EStateM.Result RunError Registers Unit :=
  let x := digitX word
  let a := r.v.get x.toFin
  let b := r.v.get (digitY word).toFin
  match opcode.toNat with
  | 0x00ee => r.ret
  | 0x1000 => .ok () { r with pc := lowAddress word }
  | 0x2000 => r.callAt (lowAddress word)
  | 0x3000 => .ok () (r.skipIf (a = lowByte word))
  | 0x4000 => .ok () (r.skipIf (a ≠ lowByte word))
  | 0x5000 => .ok () (r.skipIf (a = b))
  | 0x9000 => .ok () (r.skipIf (a ≠ b))
  | 0x6000 => .ok () (r.setV x (lowByte word))
  | 0x7000 => .ok () (r.setV x (a + lowByte word))
  | 0xa000 => .ok () { r with i := lowAddress word }
  | 0xb000 => .ok () { r with pc := lowAddress word + (r.v.get 0).setWidth 16 }
  | 0xc000 => .ok () (r.draw x (lowByte word))
  | 0xf007 => .ok () (r.setV x r.dt)
  | 0xf015 => .ok () { r with dt := a }
  | 0xf018 => .ok () { r with st := a }
  | 0xf01e => .ok () { r with i := r.i + a.setWidth 16 }
  | 0xf029 => .ok () { r with i := a.setWidth 16 * 5 }
  | n =>
    match arithmetic? n a b with
    | some out => .ok () { r with v := written r.v x out }
    | none => .ok () r

/-! ## Registers in a machine state -/

/-- The registers in a machine state, over whatever else it holds. -/
def onto (c : Cells) : Cells :=
  c |>.put "V" (wordCell r.v)
    |>.put "stack" (wordCell r.stack)
    |>.setScalar "I" (.ofWord r.i)
    |>.setScalar "pc" (.ofWord r.pc)
    |>.setScalar "sp" (.int r.sp)
    |>.setScalar "DT" (.ofWord r.dt)
    |>.setScalar "ST" (.ofWord r.st)
    |>.setScalar "seed" (.int r.seed)

section

variable (c : Cells)

@[simp] theorem get?_onto_v : (r.onto c).get? "V" = some (wordCell r.v) := by
  simp [onto, Cells.setScalar, Cells.get?_put]

@[simp] theorem get?_onto_stack : (r.onto c).get? "stack" = some (wordCell r.stack) := by
  simp [onto, Cells.setScalar, Cells.get?_put]

@[simp] theorem get?_onto_i : (r.onto c).get? "I" = some (.scalar (.ofWord r.i)) := by
  simp [onto, Cells.setScalar, Cells.get?_put]

@[simp] theorem get?_onto_pc : (r.onto c).get? "pc" = some (.scalar (.ofWord r.pc)) := by
  simp [onto, Cells.setScalar, Cells.get?_put]

@[simp] theorem get?_onto_sp : (r.onto c).get? "sp" = some (.scalar (.int r.sp)) := by
  simp [onto, Cells.setScalar, Cells.get?_put]

@[simp] theorem get?_onto_dt : (r.onto c).get? "DT" = some (.scalar (.ofWord r.dt)) := by
  simp [onto, Cells.setScalar, Cells.get?_put]

@[simp] theorem get?_onto_st : (r.onto c).get? "ST" = some (.scalar (.ofWord r.st)) := by
  simp [onto, Cells.setScalar, Cells.get?_put]

@[simp] theorem get?_onto_seed : (r.onto c).get? "seed" = some (.scalar (.int r.seed)) := by
  simp [onto, Cells.setScalar, Cells.get?_put]

/-- Other names are left as they are. -/
theorem get?_onto_of_notMem {name : String} (h : name ∉ partNames) :
    (r.onto c).get? name = c.get? name := by
  simp only [partNames, List.mem_cons, List.not_mem_nil, or_false, not_or] at h
  simp [onto, Cells.setScalar, Cells.get?_put, h, Ne.symm]

variable {r} {c}

theorem put_onto {r' : Registers} {name : String} {cell : Cell}
    (h : (r'.onto c).get? name = some cell)
    (hother : ∀ n, name ≠ n → (r.onto c).get? n = (r'.onto c).get? n) :
    (r.onto c).put name cell = r'.onto c := by
  refine Cells.ext_get? fun n => ?_
  rw [Cells.get?_put]
  split
  next heq => rw [← heq, h]
  next hne => exact hother n hne

theorem put_v (v : Vector Byte 16) : (r.onto c).put "V" (wordCell v) = { r with v }.onto c :=
  put_onto (by simp) fun n h => by simp [onto, Cells.setScalar, Cells.get?_put, h]

theorem put_stack (stack : Vector Word 16) :
    (r.onto c).put "stack" (wordCell stack) = { r with stack }.onto c :=
  put_onto (by simp) fun n h => by simp [onto, Cells.setScalar, Cells.get?_put, h]

theorem set_i (i : Word) : (r.onto c).setScalar "I" (.ofWord i) = { r with i }.onto c :=
  put_onto (by simp) fun n h => by simp [onto, Cells.setScalar, Cells.get?_put, h]

theorem set_pc (pc : Word) : (r.onto c).setScalar "pc" (.ofWord pc) = { r with pc }.onto c :=
  put_onto (by simp) fun n h => by simp [onto, Cells.setScalar, Cells.get?_put, h]

theorem set_sp (sp : Int64) : (r.onto c).setScalar "sp" (.int sp) = { r with sp }.onto c :=
  put_onto (by simp) fun n h => by simp [onto, Cells.setScalar, Cells.get?_put, h]

theorem set_dt (dt : Byte) : (r.onto c).setScalar "DT" (.ofWord dt) = { r with dt }.onto c :=
  put_onto (by simp) fun n h => by simp [onto, Cells.setScalar, Cells.get?_put, h]

theorem set_st (st : Byte) : (r.onto c).setScalar "ST" (.ofWord st) = { r with st }.onto c :=
  put_onto (by simp) fun n h => by simp [onto, Cells.setScalar, Cells.get?_put, h]

theorem set_seed (seed : Int64) :
    (r.onto c).setScalar "seed" (.int seed) = { r with seed }.onto c :=
  put_onto (by simp) fun n h => by simp [onto, Cells.setScalar, Cells.get?_put, h]

end

/-! ## Running on registers -/

/-- The routine ends as the operation does on the registers. -/
def Completes (body : List Command) (ops : List Value) (r : Registers) (c : Cells) :
    EStateM.Result RunError Registers Unit → Prop
  | .ok () r' => ∀ label, (Routine.mk label 1 (body.map Command.action)).call (r.onto c) ops =
      ⟨.ok (), r'.onto c, ops⟩
  | .error e r' => ∀ label, (Routine.mk label 1 (body.map Command.action)).call (r.onto c) ops =
      ⟨.error e, r'.onto c, ops⟩

section

variable {r r' : Registers} {c : Cells} {ops : List Value} {x y : BitVec 4}

theorem completes_of_ends {command : Command}
    (h : command.action.run.Ends (r.onto c) ops (.ok ()) (r'.onto c)) :
    Completes [command] ops r c (.ok () r') :=
  fun _ => Routine.call_of_ends (ends_runAll_singleton h)

theorem completes_setX {value : Formula} {b : Byte} (hx : ops[0]? = some (.ofWord x))
    (hvalue : value.code.eval.Ends (r.onto c) ops (.ok (.ofWord b)) (r.onto c)) :
    Completes [Command.setX value] ops r c (.ok () (r.setV x b)) := by
  have hset := ends_setX hx hvalue (r.get?_onto_v c)
  rw [put_v] at hset
  exact completes_of_ends hset

/-- A scalar takes a value. -/
theorem completes_part {name : String} {h : IsField name} {value : Formula} {u v : Value}
    (hvalue : value.code.eval.Ends (r.onto c) ops (.ok v) (r.onto c))
    (hu : (r.onto c).get? name = some (.scalar u))
    (hset : (r.onto c).setScalar name v = r'.onto c) :
    Completes [.set (.part name h) value] ops r c (.ok () r') := by
  have hrun := ends_set_part (h := h) hvalue hu
  rw [hset] at hrun
  exact completes_of_ends hrun

theorem completes_arithmetic (opcode : Word) {cs : List Command} {out : Byte × Option Bool}
    (hcs : commands? opcode = some cs)
    (hout : arithmetic? opcode.toNat (r.v.get x.toFin) (r.v.get y.toFin) = some out)
    (hx : ops[0]? = some (.ofWord x)) (hy : ops[1]? = some (.ofWord y)) :
    Completes cs ops r c (.ok () { r with v := written r.v x out }) := by
  intro label
  rw [call_arithmetic label hcs hout hx hy (r.get?_onto_v c), put_v]

theorem run_add16 (a : Word) (b : Byte) :
    Helper.add16.run Helper.add16.name [.ofWord a, .ofWord b] =
      .ok (.ofWord (a + b.setWidth 16)) := by
  rw [← ofWord_setWidth 16 (by decide) b, ← Bits.add_value]
  exact onWords_ofWord (by decide) _ _ a _

/-- The addresses of the font. -/
theorem apply_mul_five (a : Byte) : BinaryOp.mul.apply (.ofWord a) (.ofWord (5 : Byte)) =
    .ok (.ofWord (a.setWidth 16 * 5 : Word)) := by
  have hnat : (a.setWidth 16 * 5 : Word).toNat = a.toNat * 5 := by
    rw [BitVec.toNat_mul, BitVec.toNat_setWidth_of_le (by decide)]
    show a.toNat * 5 % 65536 = _
    omega
  have hvalue : Value.ofWord (a.setWidth 16 * 5 : Word) = .int (Int64.ofNat a.toNat * 5) := by
    rw [Value.ofWord, hnat, Int64.ofNat_mul]
    rfl
  rw [hvalue]
  rfl

theorem completes_skip {condition : Formula} {b : Bool}
    (hcondition : condition.code.eval.Ends (r.onto c) ops (.ok (.bool b)) (r.onto c)) :
    Completes [.skip condition] ops r c (.ok () (r.skipIf b)) := by
  have hskip := ends_skip hcondition (r.get?_onto_pc c)
  rw [set_pc, ← apply_ite (Registers.onto · c)] at hskip
  exact completes_of_ends hskip

theorem toInt_slot? {sp : Int64} {k : Fin 16} (h : slot? sp = some k) : sp.toInt = k.val := by
  unfold slot? at h
  split at h
  next hsp =>
    cases h
    exact (Int.toNat_of_nonneg hsp.1).symm
  next => cases h

theorem le_of_slot? {sp : Int64} (h : slot? sp = none) {k : Nat} (hk : sp.toInt = k) : 16 ≤ k := by
  unfold slot? at h
  split at h
  · cases h
  next hno =>
    rw [hk] at hno
    omega

theorem ends_sp (r : Registers) (ops : List Value) :
    (Term.part "sp").code.eval.Ends (r.onto c) ops (.ok (.int r.sp)) (r.onto c) :=
  ends_part (r.get?_onto_sp c)

theorem ends_pc (r : Registers) (ops : List Value) :
    (Term.part "pc").code.eval.Ends (r.onto c) ops (.ok (.ofWord r.pc)) (r.onto c) :=
  ends_part (r.get?_onto_pc c)

theorem ends_below (ops : List Value) :
    (Formula.joined .dash .sub (.part "sp") (.byte 1)).code.eval.Ends (r.onto c)
      ops (.ok (.int (r.sp - 1))) (r.onto c) :=
  ends_joined (r.ends_sp ops) rfl (ends_byte 1) rfl

theorem ends_above (ops : List Value) :
    (Formula.joined .plus .add (.part "sp") (.byte 1)).code.eval.Ends (r.onto c)
      ops (.ok (.int (r.sp + 1))) (r.onto c) :=
  ends_joined (r.ends_sp ops) rfl (ends_byte 1) rfl

theorem completes_ret : Completes [.set (.part "sp") (.joined .dash .sub (.part "sp") (.byte 1)),
    .put (.part "pc") (.element "stack" (.part "sp"))] ops r c r.ret := by
  have hdown := ends_set_part (h := by decide) (ends_below ops) (r.get?_onto_sp c)
  rw [set_sp] at hdown
  have hsp := { r with sp := r.sp - 1 }.ends_sp (c := c) ops
  have hstack := { r with sp := r.sp - 1 }.get?_onto_stack c
  unfold ret
  cases hk : slot? (r.sp - 1) with
  | some k =>
    intro label
    have hpc := ends_set_part (h := by decide) (e := .term (.element "stack" (.part "sp")))
      (ends_element (h := by decide) hsp (toInt_slot? hk) hstack)
      ({ r with sp := r.sp - 1 }.get?_onto_pc c)
    rw [set_pc] at hpc
    exact Routine.call_of_ends (ends_runAll_cons hdown (ends_runAll_singleton hpc))
  | none =>
    intro label
    have hload := ends_element_error (h := by decide) hsp (fun k => le_of_slot? hk) hstack
    have hpc : (Command.put (.part "pc") (.element "stack" (.part "sp"))).action.run.Ends
        ({ r with sp := r.sp - 1 }.onto c) ops _ _ := ends_assign_value_error
      (ends_context (ends_evalKeys_cons (ends_literal _) rfl ends_evalKeys_nil)) hload
    exact Routine.call_of_ends (ends_runAll_cons hdown (ends_runAll_error hpc))

theorem completes_callAt {target : Word} (h : ops[0]? = some (.ofWord target)) :
    Completes [.put (.element "stack" (.part "sp")) (.part "pc"),
      .set (.part "sp") (.joined .plus .add (.part "sp") (.byte 1)),
      .put (.part "pc") (.operand 0)] ops r c (r.callAt target) := by
  have hplace : (Target.element "stack" (.part "sp")).place.locate.Ends (r.onto c) ops _ _ :=
    ends_elementKeys (r.ends_sp ops)
  have hpc := r.ends_pc (c := c) ops
  unfold callAt
  cases hk : slot? r.sp with
  | some k =>
    intro label
    have hpush : (Command.put (.element "stack" (.part "sp")) (.part "pc")).action.run.Ends
        (r.onto c) ops _ _ := ends_assign hplace hpc
      (store_element (toInt_slot? hk) (r.get?_onto_stack c))
    rw [put_stack] at hpush
    have hup := ends_set_part (h := by decide) (ends_above ops)
      ({ r with stack := r.stack.setIfInBounds k r.pc }.get?_onto_sp c)
    rw [set_sp] at hup
    have hjump := ends_set_part (h := by decide) (e := .term (.operand 0))
      (ends_operandTerm h)
      ({ r with stack := r.stack.setIfInBounds k r.pc, sp := r.sp + 1 }.get?_onto_pc c)
    rw [set_pc] at hjump
    exact Routine.call_of_ends (ends_runAll_cons hpush
      (ends_runAll_cons hup (ends_runAll_singleton hjump)))
  | none =>
    intro label
    have hpush : (Command.put (.element "stack" (.part "sp")) (.part "pc")).action.run.Ends
        (r.onto c) ops _ _ := ends_assign_error hplace hpc
      (store_element_error (fun k => le_of_slot? hk) (r.get?_onto_stack c))
    exact Routine.call_of_ends (ends_runAll_error hpush)

theorem random_onto : Chip8.random [] (r.onto c) = .ok (.ofWord (r.seed' &&& 0x00ff))
    ({ r with seed := Int64.ofNat r.seed'.toNat }.onto c) := by
  have hload : (MachineState.load [.name "seed"] : Effect Cells Value) (r.onto c) =
      .ok (.int r.seed) (r.onto c) := by
    show Effect.ofExcept ((r.onto c).load _) _ = _
    rw [Cells.load_scalar (r.get?_onto_seed c)]
    rfl
  have hstore : (MachineState.store [.name "seed"] (.ofWord r.seed') : Effect Cells Unit)
      (r.onto c) = .ok () ({ r with seed := Int64.ofNat r.seed'.toNat }.onto c) := by
    rw [store_scalar (r.get?_onto_seed c), Value.ofWord, set_seed]
  show EStateM.bind (MachineState.load [.name "seed"]) _ (r.onto c) = _
  rw [EStateM.bind, hload]
  show EStateM.bind (MachineState.store [.name "seed"] (.ofWord r.seed')) _ (r.onto c) = _
  rw [EStateM.bind, hstore]
  rfl

/-- The low byte of a word. -/
theorem and_lowByte (a : Word) : Value.ofWord (a &&& 0x00ff) = .ofWord (a.setWidth 8) := by
  have h : (a &&& 0x00ff).toNat = (a.setWidth 8).toNat := by
    rw [BitVec.toNat_and, BitVec.toNat_setWidth]
    exact Nat.and_two_pow_sub_one_eq_mod a.toNat 8
  rw [Value.ofWord, h, Value.ofWord]

theorem completes_draw {mask : Byte} (hx : ops[0]? = some (.ofWord x))
    (hmask : ops[1]? = some (.ofWord mask)) :
    Completes [Command.setX (.joined .ampersand .bitAnd .random (.operand 1))] ops r c
      (.ok () (r.draw x mask)) := by
  have hrandom : (Term.random.code : Code Cells 1).eval.Ends (r.onto c) ops _ _ :=
    ends_call ends_evalAll_nil random_onto
  have happly := apply_bitAnd (r.seed'.setWidth 8) mask
  rw [← and_lowByte] at happly
  have hvalue := ends_joined (s := .ampersand) (h := rfl) hrandom rfl
    (ends_operandTerm (i := 1) hmask) happly
  have hset := ends_setX hx hvalue ({ r with seed := _ }.get?_onto_v c)
  rw [put_v] at hset
  exact completes_of_ends hset

end

end Registers

/-! ## Operands -/

/-- The operands of the operations with a program. -/
inductive Layout
  | none
  | address
  | x
  | xByte
  | xy
  deriving DecidableEq

namespace Layout

/-- The layout of an operation, by its opcode. -/
def of (opcode : Word) : Layout :=
  match opcode.toNat with
  | 0x00ee => none
  | 0x1000 | 0x2000 | 0xa000 | 0xb000 => address
  | 0x3000 | 0x4000 | 0x6000 | 0x7000 | 0xc000 => xByte
  | 0xf007 | 0xf015 | 0xf018 | 0xf01e | 0xf029 => x
  | _ => xy

/-- The fields of the operands. -/
def fields : Layout → List Field
  | none => []
  | address => [⟨0x0fff⟩]
  | x => [⟨0x0f00⟩]
  | xByte => [⟨0x0f00⟩, ⟨0x00ff⟩]
  | xy => [⟨0x0f00⟩, ⟨0x00f0⟩]

/-- The values of the operands. -/
def values (word : Word) : Layout → List Value
  | none => []
  | address => [.ofWord (lowAddress word)]
  | x => [.ofWord (digitX word)]
  | xByte => [.ofWord (digitX word), .ofWord (lowByte word)]
  | xy => [.ofWord (digitX word), .ofWord (digitY word)]

/-- The digits under a mask without gaps. -/
theorem shiftRight_and_mask {start len : Nat} {mask : Word} (word : Word)
    (h : ∀ i < 16, mask.getLsbD (start + i) = decide (i < len)) :
    (word &&& mask) >>> start = (word.extractLsb' start len).setWidth 16 := by
  refine BitVec.eq_of_getLsbD_eq fun i hi => ?_
  rw [BitVec.getLsbD_ushiftRight, BitVec.getLsbD_and, h i hi, BitVec.getLsbD_setWidth,
    BitVec.getLsbD_extractLsb', Bool.and_comm]
  simp [hi]

theorem ofWord_get {start len : Nat} {f : Field} (word : Word) (hlen : len ≤ 16)
    (hlow : f.lowest = start) (h : ∀ i < 16, f.mask.getLsbD (start + i) = decide (i < len)) :
    Value.ofWord (f.get word) = .ofWord (word.extractLsb' start len) := by
  rw [Field.get, hlow, shiftRight_and_mask word h, ofWord_setWidth 16 hlen]

/-- The values are digits of the word. -/
theorem map_get (layout : Layout) (word : Word) :
    layout.fields.map (fun f => Value.ofWord (f.get word)) = layout.values word := by
  have hx : Value.ofWord (Field.get ⟨0x0f00⟩ word) = .ofWord (digitX word) :=
    ofWord_get word (by decide) (by decide) (by decide)
  have hy : Value.ofWord (Field.get ⟨0x00f0⟩ word) = .ofWord (digitY word) :=
    ofWord_get word (by decide) (by decide) (by decide)
  have hbyte : Value.ofWord (Field.get ⟨0x00ff⟩ word) = .ofWord (lowByte word) :=
    ofWord_get word (by decide) (by decide) (by decide)
  have haddress : Value.ofWord (Field.get ⟨0x0fff⟩ word) = .ofWord (lowAddress word) := by
    show Value.ofWord ((word &&& 0x0fff) >>> 0) = _
    rw [BitVec.ushiftRight_zero, lowAddress]
  cases layout with
  | none => rfl
  | address => exact congrArg ([·]) haddress
  | x => exact congrArg ([·]) hx
  | xByte => exact congrArg₂ ([·, ·]) hx hbyte
  | xy => exact congrArg₂ ([·, ·]) hx hy

/-- The operations with a program have the fields of their layout. -/
theorem fields_of : ∀ op ∈ operations, (commands? op.opcode).isSome = true →
    op.operands.map (·.field) = (of op.opcode).fields := by
  decide

theorem decode_operation {op : Operation} (hop : op ∈ operations) {cs : List Command}
    (h : commands? op.opcode = some cs) (word : Word) :
    (op.decode word).map Value.ofWord = (of op.opcode).values word := by
  rw [← map_get, ← fields_of op hop (by rw [h]; rfl), Operation.decode, List.map_map, List.map_map]
  rfl

end Layout

namespace Registers

/-- **The routine of an operation does what `step` says.** -/
theorem completes_step {opcode : Word} {cs : List Command} (word : Word) (r : Registers)
    (c : Cells) (h : commands? opcode = some cs) :
    Completes cs ((Layout.of opcode).values word) r c (r.step opcode word) := by
  have hv := r.get?_onto_v c
  have hpc := r.get?_onto_pc c
  unfold commands? at h
  unfold Layout.of step
  generalize opcode.toNat = n at h
  split at h <;> cases h
  case h_1 => exact completes_ret
  case h_2 => exact completes_part (ends_operandTerm rfl) hpc (set_pc _)
  case h_3 => exact completes_callAt rfl
  case h_4 =>
    exact completes_skip (ends_joined (ends_register hv rfl) rfl (ends_operandTerm rfl)
      (apply_eq (by decide) _ _))
  case h_5 =>
    exact completes_skip (ends_joined (ends_register hv rfl) rfl (ends_operandTerm rfl)
      (apply_ne (by decide) _ _))
  case h_6 =>
    exact completes_skip (ends_joined (ends_register hv rfl) rfl (ends_register hv rfl)
      (apply_eq (by decide) _ _))
  case h_7 =>
    exact completes_skip (ends_joined (ends_register hv rfl) rfl (ends_register hv rfl)
      (apply_ne (by decide) _ _))
  case h_8 => exact completes_setX rfl (ends_operandTerm rfl)
  case h_9 =>
    exact completes_setX rfl (ends_helper (ends_register hv rfl) (ends_operandTerm rfl)
      (run_add8 _ _))
  case h_10 => exact completes_arithmetic 0x8000 rfl rfl rfl rfl
  case h_11 => exact completes_arithmetic 0x8001 rfl rfl rfl rfl
  case h_12 => exact completes_arithmetic 0x8002 rfl rfl rfl rfl
  case h_13 => exact completes_arithmetic 0x8003 rfl rfl rfl rfl
  case h_14 => exact completes_arithmetic 0x8004 rfl rfl rfl rfl
  case h_15 => exact completes_arithmetic 0x8005 rfl rfl rfl rfl
  case h_16 => exact completes_arithmetic 0x8006 rfl rfl rfl rfl
  case h_17 => exact completes_arithmetic 0x8007 rfl rfl rfl rfl
  case h_18 => exact completes_arithmetic 0x800e rfl rfl rfl rfl
  case h_19 => exact completes_part (ends_operandTerm rfl) (r.get?_onto_i c) (set_i _)
  case h_20 =>
    exact completes_part (ends_helper (ends_operandTerm rfl)
      (ends_element (k := (0 : Fin 16)) (ends_byte 0) rfl hv) (run_add16 _ _)) hpc (set_pc _)
  case h_21 => exact completes_draw rfl rfl
  case h_22 => exact completes_setX rfl (ends_part (h := by decide) (r.get?_onto_dt c))
  case h_23 => exact completes_part (ends_register hv rfl) (r.get?_onto_dt c) (set_dt _)
  case h_24 => exact completes_part (ends_register hv rfl) (r.get?_onto_st c) (set_st _)
  case h_25 =>
    exact completes_part (ends_helper (ends_part (r.get?_onto_i c)) (ends_register hv rfl)
      (run_add16 _ _)) (r.get?_onto_i c) (set_i _)
  case h_26 =>
    exact completes_part (ends_joined (ends_register hv rfl) rfl (ends_byte 5) (apply_mul_five _))
      (r.get?_onto_i c) (set_i _)

end Registers

end Isa16.Chip8
