import Isa16.Proofs.Program.Evaluation
import Isa16.Proofs.Program.WellScoped
import Isa16.Proofs.Program.WordFunctions

/-!
# Calls of the functions on words

* `Library.call?`: a call of a function of a library, with arguments.
* `Value.IsWord`: an integer or a truth value that is a word of the width.
* `wordArgument_eq_ok_iff`, `onWords_eq_ok_iff`: when an argument is taken as a word, and a function
  of two words succeeds.
* `Nested`: calls of the functions on words within one another.
* **`arithmetic_exact`**: sums and differences with their flags are exact, residues are taken of all
  integers, and calls within one another never fail.
-/

namespace Isa16

variable {σ : Type} {w : Nat}

/-- A call of a function of the library, if there is one of the name. -/
def Library.call? (lib : Library σ) (name : String) (args : List Value) : Option (Effect σ Value) :=
  match lib.get? name with
  | some (.function f) => some (f args)
  | _ => none

/-- The value is an integer or a truth value, and as a number it is the word. -/
def Value.IsWord (v : Value) (a : BitVec w) : Prop :=
  ∃ n, v.number? = some n ∧ n.toInt = a.toNat

/-! ## Arguments -/

theorem intArgument_eq_ok_iff {function : String} {args : List Value} {index : Nat} {n : Int64} :
    intArgument function args index = .ok n ↔ ∃ v, args[index]? = some v ∧ v.number? = some n := by
  unfold intArgument
  cases args[index]? with
  | none => simp
  | some v =>
    simp only [Option.some_inj, exists_eq_left', Value.number]
    cases v.number? <;> simp

theorem Bits.toNat_ofInt_eq_emod (n : Int) : ((BitVec.ofInt w n).toNat : Int) = n % 2 ^ w := by
  rw [BitVec.toNat_ofInt, Int.toNat_of_nonneg (Int.emod_nonneg _ (by positivity))]
  norm_cast

theorem fits_and_ofInt_iff {n : Int} {a : BitVec w} :
    Bits.fits w n = true ∧ BitVec.ofInt w n = a ↔ n = a.toNat := by
  rw [Bits.fits_iff]
  constructor
  · rintro ⟨⟨hpos, hlt⟩, rfl⟩
    rw [Bits.toNat_ofInt_eq_emod]
    exact (Int.emod_eq_of_lt hpos hlt).symm
  · rintro rfl
    exact ⟨⟨Int.natCast_nonneg _, by exact_mod_cast a.isLt⟩, by simp⟩

theorem wordArgument_eq_ok_iff {function : String} {args : List Value} {index : Nat}
    {a : BitVec w} : wordArgument w function args index = .ok a ↔
      ∃ v, args[index]? = some v ∧ v.IsWord a := by
  have hstep : wordArgument w function args index = .ok a ↔
      ∃ n, intArgument function args index = .ok n ∧ n.toInt = a.toNat := by
    unfold wordArgument
    cases intArgument function args index with
    | error e => exact iff_of_false (fun h => nomatch h) (fun ⟨_, h, _⟩ => nomatch h)
    | ok n =>
      simp only [Except.ok.injEq, exists_eq_left', ← fits_and_ofInt_iff]
      show (if Bits.fits w n.toInt = true then Except.ok _ else .error _) = _ ↔ _
      split_ifs with hfits <;> simp [hfits]
  rw [hstep]
  simp only [intArgument_eq_ok_iff]
  constructor
  · rintro ⟨n, ⟨v, hv, hn⟩, ha⟩
    exact ⟨v, hv, n, hn, ha⟩
  · rintro ⟨v, hv, n, hn, ha⟩
    exact ⟨n, ⟨v, hv, hn⟩, ha⟩

/-- A function of two words succeeds on words, and on nothing else. -/
theorem onWords_eq_ok_iff {f : BitVec w → BitVec w → Value} {name : String} {args : List Value}
    {r : Value} : onWords w f name args = .ok r ↔ ∃ u v rest a b,
      args = u :: v :: rest ∧ u.IsWord a ∧ v.IsWord b ∧ f a b = r := by
  have hstep : onWords w f name args = .ok r ↔ ∃ a b, wordArgument w name args 0 = .ok a ∧
      wordArgument w name args 1 = .ok b ∧ f a b = r := by
    unfold onWords
    cases wordArgument w name args 0 with
    | error e => exact iff_of_false (fun h => nomatch h) (fun ⟨_, _, h, _⟩ => nomatch h)
    | ok a =>
      cases wordArgument w name args 1 with
      | error e => exact iff_of_false (fun h => nomatch h) (fun ⟨_, _, _, h, _⟩ => nomatch h)
      | ok b => simp [bind, Except.bind, pure, Except.pure]
  rw [hstep]
  simp only [wordArgument_eq_ok_iff]
  constructor
  · rintro ⟨a, b, ⟨u, hu, ha⟩, ⟨v, hv, hb⟩, hr⟩
    rcases args with _ | ⟨_, _ | ⟨_, rest⟩⟩
    · cases hu
    · cases hv
    · cases hu
      cases hv
      exact ⟨u, v, rest, a, b, rfl, ha, hb, hr⟩
  · rintro ⟨u, v, rest, a, b, rfl, ha, hb, hr⟩
    exact ⟨a, b, ⟨u, rfl, ha⟩, ⟨v, rfl, hb⟩, hr⟩

theorem onWords_of_isWord {u v : Value} {a b : BitVec w} (ha : u.IsWord a) (hb : v.IsWord b)
    (f : BitVec w → BitVec w → Value) (name : String) (rest : List Value) :
    onWords w f name (u :: v :: rest) = .ok (f a b) :=
  onWords_eq_ok_iff.mpr ⟨u, v, rest, a, b, rfl, ha, hb, rfl⟩

/-- A residue is taken of every integer and truth value. -/
theorem wrapInt_cons {name : String} {u : Value} {rest : List Value} {n : Int64}
    (h : u.number? = some n) :
    wrapInt w name (u :: rest) = .ok (.ofWord (BitVec.ofInt w n.toInt)) := by
  have harg : intArgument name (u :: rest) 0 = .ok n := intArgument_eq_ok_iff.mpr ⟨u, rfl, h⟩
  unfold wrapInt
  rw [harg]
  rfl

/-! ## Exact sums -/

namespace Bits

variable (a b : BitVec w)

theorem add_exact :
    (add a b).value.toNat + 2 ^ w * (add a b).overflow.toNat = a.toNat + b.toNat := by
  have ha := a.isLt
  have hb := b.isLt
  rw [add_value, add_overflow, BitVec.toNat_add]
  by_cases h : 2 ^ w ≤ a.toNat + b.toNat
  · rw [Nat.mod_eq_sub_mod h, Nat.mod_eq_of_lt (by omega), decide_eq_true h, Bool.toNat_true]
    omega
  · rw [Nat.mod_eq_of_lt (not_le.mp h), decide_eq_false h, Bool.toNat_false]
    omega

theorem sub_exact :
    ((sub a b).value.toNat : Int) - 2 ^ w * (sub a b).overflow.toNat = a.toNat - b.toNat := by
  have ha := a.isLt
  have hb := b.isLt
  rw [sub_value, sub_overflow, BitVec.toNat_sub]
  by_cases h : a.toNat < b.toNat
  · rw [Nat.mod_eq_of_lt (by omega), decide_eq_true h, Bool.toNat_true]
    push_cast [hb.le]
    omega
  · rw [Nat.mod_eq_sub_mod (by omega), Nat.mod_eq_of_lt (by omega), decide_eq_false h,
      Bool.toNat_false]
    omega

end Bits

/-! ## Calls -/

theorem get?_arithmeticLibrary (hw : w = 8 ∨ w = 16) {name : String} {f : NamedFn}
    (h : (name, f) ∈ wordFunctions w) : (arithmeticLibrary : Library σ).get? (name ++ toString w) =
      some (.function (HostFunction.ofPure (f (name ++ toString w)))) := by
  rcases hw with rfl | rfl
  · exact get?_arithmeticLibrary_eight name h
  · exact get?_arithmeticLibrary_sixteen name h

theorem call?_arithmeticLibrary (hw : w = 8 ∨ w = 16) {name : String} {f : NamedFn}
    (h : (name, f) ∈ wordFunctions w) (args : List Value) :
    (arithmeticLibrary : Library σ).call? (name ++ toString w) args =
      some (Effect.ofExcept (f (name ++ toString w) args)) := by
  rw [Library.call?, get?_arithmeticLibrary hw h]
  rfl

theorem mem_add (w : Nat) :
    ("add", onWords w fun a b => .ofWord (Bits.add a b).value) ∈ wordFunctions w := by
  simp [wordFunctions]

theorem mem_sub (w : Nat) :
    ("sub", onWords w fun a b => .ofWord (Bits.sub a b).value) ∈ wordFunctions w := by
  simp [wordFunctions]

theorem mem_carry (w : Nat) :
    ("carry", onWords w fun a b => .ofNat (Bits.add a b).overflow.toNat) ∈ wordFunctions w := by
  simp [wordFunctions]

theorem mem_borrow (w : Nat) :
    ("borrow", onWords w fun a b => .ofNat (Bits.sub a b).overflow.toNat) ∈ wordFunctions w := by
  simp [wordFunctions]

theorem mem_wrap (w : Nat) : ("wrap", wrapInt w) ∈ wordFunctions w := by
  simp [wordFunctions]

/-- The functions of two words. -/
def pairNames : List String :=
  ["add", "sub", "carry", "borrow"]

theorem Value.isWord_ofWord (hw : w ≤ 32) (a : BitVec w) : (Value.ofWord a).IsWord a :=
  ⟨_, rfl, toInt_ofNat_toNat hw a⟩

theorem Value.IsWord.widen {v : Value} {a : BitVec w} (h : v.IsWord a) {w' : Nat} (hle : w ≤ w') :
    v.IsWord (a.setWidth w') := by
  obtain ⟨n, hn, ha⟩ := h
  exact ⟨n, hn, by rw [ha, BitVec.toNat_setWidth_of_le hle]⟩

theorem Value.exists_isWord_ofNat_toNat (hw : 0 < w) (flag : Bool) :
    ∃ a : BitVec w, (Value.ofNat flag.toNat).IsWord a := by
  have hbit : (Value.ofNat flag.toNat).IsWord (BitVec.ofBool flag) := by
    cases flag <;> exact ⟨_, rfl, rfl⟩
  exact ⟨_, hbit.widen hw⟩

theorem exists_onWords (hw : w = 8 ∨ w = 16) {name : String} (h : name ∈ pairNames) :
    ∃ f, (name, onWords w f) ∈ wordFunctions w ∧
      ∀ a b, ∃ r : BitVec w, (f a b).IsWord r := by
  have hpos : 0 < w := by omega
  have hle : w ≤ 32 := by omega
  simp only [pairNames, List.mem_cons, List.not_mem_nil, or_false] at h
  rcases h with rfl | rfl | rfl | rfl
  · exact ⟨_, mem_add w, fun a b => ⟨_, Value.isWord_ofWord hle _⟩⟩
  · exact ⟨_, mem_sub w, fun a b => ⟨_, Value.isWord_ofWord hle _⟩⟩
  · exact ⟨_, mem_carry w, fun a b => Value.exists_isWord_ofNat_toNat hpos _⟩
  · exact ⟨_, mem_borrow w, fun a b => Value.exists_isWord_ofNat_toNat hpos _⟩

/-! ## Calls within one another -/

/-- Calls of the functions on words within one another. Innermost are expressions that give a word
and leave the frame as it is. -/
inductive Nested [MachineState σ] (s : Scope σ) (frame : Frame σ s.slots) : Nat → Expr → Prop
  | word {w : Nat} {e : Expr} {c : Code σ s.slots} {v : Value} {a : BitVec w}
    (hc : s.code e = .ok c) (heval : c.eval frame = .ok v frame) (hv : v.IsWord a) :
    Nested s frame w e
  | pair {w : Nat} {name : String} {l r : Expr} (hw : w = 8 ∨ w = 16) (hname : name ∈ pairNames)
    (hl : Nested s frame w l) (hr : Nested s frame w r) :
    Nested s frame w (.call (.ident (Snippet.entry (name ++ toString w))) [l, r])
  | wrap {w w' : Nat} {e : Expr} (hw : w = 8 ∨ w = 16) (h : Nested s frame w' e) :
    Nested s frame w (.call (.ident (Snippet.entry ("wrap" ++ toString w))) [e])
  | widen {w w' : Nat} {e : Expr} (hle : w ≤ w') (h : Nested s frame w e) : Nested s frame w' e

/-- The scope's library has the functions on words. -/
def Scope.HasArithmetic (s : Scope σ) : Prop :=
  ∀ name ∈ (arithmeticLibrary : Library σ).names,
    s.library.get? name = (arithmeticLibrary : Library σ).get? name

theorem Scope.code_wordCall {s : Scope σ} (hs : s.HasArithmetic) (hw : w = 8 ∨ w = 16)
    {name : String} {f : NamedFn} (h : (name, f) ∈ wordFunctions w) {args : List Expr}
    {cs : List (Code σ s.slots)} (hcs : s.codes args = .ok cs) :
    s.code (.call (.ident (Snippet.entry (name ++ toString w))) args) =
      .ok (.call (HostFunction.ofPure (f (name ++ toString w))) cs) := by
  have hget := get?_arithmeticLibrary (σ := σ) hw h
  have hentry := (hs _ (Library.mem_names.mpr (by rw [hget]; rfl))).trans hget
  rw [code, entry_eq_ok_iff.mpr ⟨_, rfl, hentry⟩, hcs]
  rfl

section

variable [MachineState σ] {s : Scope σ} {frame : Frame σ s.slots}

theorem eval_call_ofPure {g : List Value → Except RunError Value} {cs : List (Code σ s.slots)}
    {vs : List Value} {v : Value} (hcs : Code.evalAll cs frame = .ok vs frame) (hg : g vs = .ok v) :
    (Code.call (HostFunction.ofPure g) cs).eval frame = .ok v frame := by
  rw [Code.eval, Activation.bind_of_ok hcs, Activation.onState, HostFunction.ofPure, hg]
  rfl

theorem evalAll_cons {c : Code σ s.slots} {cs : List (Code σ s.slots)} {v : Value}
    {vs : List Value} (hc : c.eval frame = .ok v frame)
    (hcs : Code.evalAll cs frame = .ok vs frame) :
    Code.evalAll (c :: cs) frame = .ok (v :: vs) frame := by
  rw [Code.evalAll, Activation.bind_of_ok hc, Activation.bind_of_ok hcs]
  rfl

theorem evalAll_nil : Code.evalAll ([] : List (Code σ s.slots)) frame = .ok [] frame := by
  rw [Code.evalAll]
  rfl

/-- **Calls within one another never fail**, and give a word. -/
theorem Nested.eval (hs : s.HasArithmetic) {e : Expr} (h : Nested s frame w e) :
    ∃ (c : Code σ s.slots) (v : Value) (a : BitVec w),
      s.code e = .ok c ∧ c.eval frame = .ok v frame ∧ v.IsWord a := by
  induction h with
  | word hc heval hv => exact ⟨_, _, _, hc, heval, hv⟩
  | @pair w name lhs rhs hw hname _ _ ihl ihr =>
    obtain ⟨cl, u, a, hcl, hu, ha⟩ := ihl
    obtain ⟨cr, v, b, hcr, hv, hb⟩ := ihr
    obtain ⟨f, hf, hword⟩ := exists_onWords hw hname
    obtain ⟨r, hr⟩ := hword a b
    have hcs : s.codes [lhs, rhs] = .ok [cl, cr] := by
      rw [Scope.codes, Scope.codes, Scope.codes, hcl, hcr]
      rfl
    have hargs := evalAll_cons hu (evalAll_cons hv evalAll_nil)
    exact ⟨_, _, _, Scope.code_wordCall hs hw hf hcs,
      eval_call_ofPure hargs (onWords_of_isWord ha hb f _ []), hr⟩
  | @wrap w w' e hw _ ih =>
    obtain ⟨c, v, a, hc, hv, n, hn, -⟩ := ih
    have hcs : s.codes [e] = .ok [c] := by
      rw [Scope.codes, Scope.codes, hc]
      rfl
    have hargs := evalAll_cons hv evalAll_nil
    exact ⟨_, _, _, Scope.code_wordCall hs hw (mem_wrap w) hcs,
      eval_call_ofPure hargs (wrapInt_cons hn), Value.isWord_ofWord (by omega) _⟩
  | widen hle _ ih =>
    obtain ⟨c, v, a, hc, hv, ha⟩ := ih
    exact ⟨c, v, _, hc, hv, ha.widen hle⟩

end

/-- **The arithmetic on words is exact.** Sums and differences are given for two words and for
nothing else; with their flags they are those of the numbers. A residue is given for every integer
and truth value. So calls within one another never fail. -/
theorem arithmetic_exact [MachineState σ] (hw : w = 8 ∨ w = 16) :
    let call name := (arithmeticLibrary : Library σ).call? (name ++ toString w)
    (∀ (u v : Value) (rest : List Value) (a b : BitVec w), u.IsWord a → v.IsWord b →
      ∃ (sum difference : BitVec w) (carry borrow : Bool),
        call "add" (u :: v :: rest) = some (pure (.ofWord sum)) ∧
        call "carry" (u :: v :: rest) = some (pure (.ofNat carry.toNat)) ∧
        sum.toNat + 2 ^ w * carry.toNat = a.toNat + b.toNat ∧
        call "sub" (u :: v :: rest) = some (pure (.ofWord difference)) ∧
        call "borrow" (u :: v :: rest) = some (pure (.ofNat borrow.toNat)) ∧
        (difference.toNat : Int) - 2 ^ w * borrow.toNat = a.toNat - b.toNat) ∧
    (∀ args, (∀ u v rest (a b : BitVec w), args = u :: v :: rest → ¬ (u.IsWord a ∧ v.IsWord b)) →
      ∀ name ∈ pairNames, ∃ e, call name args = some (throw e)) ∧
    (∀ (u : Value) (rest : List Value) (n : Int64), u.number? = some n →
      ∃ residue : BitVec w, call "wrap" (u :: rest) = some (pure (.ofWord residue)) ∧
        (residue.toNat : Int) = n.toInt % 2 ^ w) ∧
    ∀ (s : Scope σ) (frame : Frame σ s.slots) (e : Expr), s.HasArithmetic → Nested s frame w e →
      ∃ (c : Code σ s.slots) (v : Value) (a : BitVec w),
        s.code e = .ok c ∧ c.eval frame = .ok v frame ∧ v.IsWord a := by
  intro call
  have hpair : ∀ {u v : Value} {rest : List Value} {a b : BitVec w} {name : String}
      {f : BitVec w → BitVec w → Value}, u.IsWord a → v.IsWord b →
      (name, onWords w f) ∈ wordFunctions w →
      call name (u :: v :: rest) = some (pure (f a b)) := by
    intro u v rest a b name f ha hb hmem
    refine (call?_arithmeticLibrary hw hmem _).trans ?_
    rw [onWords_of_isWord ha hb]
    rfl
  refine ⟨fun u v rest a b ha hb => ?_, fun args hargs name hname => ?_, fun u rest n hn => ?_,
    fun s frame e hs h => h.eval hs⟩
  · exact ⟨_, _, _, _, hpair ha hb (mem_add w), hpair ha hb (mem_carry w), Bits.add_exact a b,
      hpair ha hb (mem_sub w), hpair ha hb (mem_borrow w), Bits.sub_exact a b⟩
  · obtain ⟨f, hmem, -⟩ := exists_onWords hw hname
    cases hcall : onWords w f (name ++ toString w) args with
    | ok r =>
      obtain ⟨u, v, rest, a, b, rfl, ha, hb, -⟩ := onWords_eq_ok_iff.mp hcall
      exact absurd ⟨ha, hb⟩ (hargs u v rest a b rfl)
    | error e =>
      refine ⟨e, (call?_arithmeticLibrary hw hmem _).trans ?_⟩
      rw [hcall]
      rfl
  · refine ⟨_, (call?_arithmeticLibrary hw (mem_wrap w) _).trans ?_, Bits.toNat_ofInt_eq_emod _⟩
    rw [wrapInt_cons hn]
    rfl

/-- A sum that overflows, of an integer and a truth value, and calls in both arguments of a call. -/
theorem arithmetic_exact_overflow :
    let s : Scope Cells := ⟨[], arithmeticLibrary⟩
    let frame : Frame Cells s.slots := ⟨∅, [], #v[]⟩
    let apply (name : String) (l r : Expr) : Expr :=
      .call (.ident (Snippet.entry (name ++ toString 8))) [l, r]
    (Value.int 255).IsWord (255 : BitVec 8) ∧ (Value.bool true).IsWord (1 : BitVec 8) ∧
    (∃ (sum : BitVec 8) (carry : Bool),
      (arithmeticLibrary : Library Cells).call? "add8" [.int 255, .bool true] =
        some (pure (.ofWord sum)) ∧
      (arithmeticLibrary : Library Cells).call? "carry8" [.int 255, .bool true] =
        some (pure (.ofNat carry.toNat)) ∧ sum.toNat + 256 * carry.toNat = 256) ∧
    ∃ (c : Code Cells s.slots) (v : Value) (a : BitVec 8),
      s.code (apply "add" (apply "sub" (.int 0) (.int 255))
        (apply "carry" (.bool true) (.int 255))) = .ok c ∧ c.eval frame = .ok v frame ∧ v.IsWord a := by
  intro s frame apply
  have hword : (Value.int 255).IsWord (255 : BitVec 8) := ⟨255, rfl, by decide⟩
  have hone : (Value.bool true).IsWord (1 : BitVec 8) := ⟨1, rfl, by decide⟩
  have hzero : (Value.int 0).IsWord (0 : BitVec 8) := ⟨0, rfl, by decide⟩
  have hint : Nested s frame 8 (.int 255) := .word rfl rfl hword
  have hbool : Nested s frame 8 (.bool true) := .word rfl rfl hone
  have hsub : Nested s frame 8 (apply "sub" (.int 0) (.int 255)) :=
    .pair (Or.inl rfl) (by decide) (.word rfl rfl hzero) hint
  have hnested : Nested s frame 8 (apply "add" _ (apply "carry" (.bool true) (.int 255))) :=
    .pair (Or.inl rfl) (by decide) hsub (.pair (Or.inl rfl) (by decide) hbool hint)
  obtain ⟨hsums, -, -, hcalls⟩ := arithmetic_exact (σ := Cells) (w := 8) (Or.inl rfl)
  obtain ⟨sum, -, carry, -, hadd, hcarry, hexact, -⟩ := hsums _ _ [] _ _ hword hone
  exact ⟨hword, hone, ⟨sum, carry, hadd, hcarry, hexact⟩,
    hcalls s frame _ (fun _ _ => rfl) hnested⟩

end Isa16
