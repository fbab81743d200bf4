import Isa16.Program.Scan
import Mathlib

/-!
# Lexemes with spaces between them

* `Lexeme.IsPlain`: a lexeme that is read back from what messages show of it, in front of a space
  or of the end of a text. Symbols (`isPlain_symbol`) and names (`isPlain_identifier`) are.
* `scanFrom_of_splitGap_nil`, `scanFrom_of_splitGap_cons`: a scan behind the gap at its front.
* `spaced`: lexemes as a text, with a space in front of each.
* **`scanFrom_spaced`**: plain lexemes are read back from the text that they make up.
-/

namespace Isa16

/-- A space follows, or the end of the text. -/
inductive Spaced : List Char → Prop
  | ending : Spaced []
  | space (cs : List Char) : Spaced (' ' :: cs)

/-- In front of a space or of the end of a text, the lexeme is read back from what is shown of
it. -/
def Lexeme.IsPlain (l : Lexeme) : Prop :=
  ∀ rest, Spaced rest → ∃ c cs, l.shown.toList ++ rest = c :: cs ∧ isBlank c = false ∧
    ¬ (c = '/' ∧ cs.head? = some '/') ∧ readPiece c cs = .ok ⟨l, l.shown.toList, rest⟩

theorem isPlain_symbol (s : Symbol) : (Lexeme.symbol s).IsPlain := by
  intro rest hrest
  have hshown : (Lexeme.symbol s).shown.toList = s.chars := String.toList_ofList
  rw [hshown]
  cases hrest with
  | ending => cases s <;> exact ⟨_, _, rfl, by decide, by decide, rfl⟩
  | space cs => cases s <;> exact ⟨_, _, rfl, by decide, by simp, rfl⟩

theorem ofPair?_of_isNameStart {c : Char} (hc : isNameStart c) (d : Char) :
    Symbol.ofPair? c d = none := by
  unfold Symbol.ofPair?
  split <;> first | rfl | cases hc

theorem ofChar?_of_isNameStart {c : Char} (hc : isNameStart c) : Symbol.ofChar? c = none := by
  unfold Symbol.ofChar?
  split <;> first | rfl | cases hc

/-- The code points of the characters that a name may begin with. -/
theorem toNat_of_isNameStart {c : Char} (hc : isNameStart c) :
    c.toNat = 36 ∨ 65 ≤ c.toNat ∧ c.toNat ≤ 90 ∨ c.toNat = 95 ∨ 97 ≤ c.toNat ∧ c.toNat ≤ 122 := by
  simp only [isNameStart, Char.isAlpha, Char.isUpper, Char.isLower, Bool.or_eq_true,
    Bool.and_eq_true, decide_eq_true_eq, ge_iff_le, UInt32.le_iff_toNat_le] at hc
  rcases hc with ((hc | hc) | rfl) | rfl
  · exact Or.inr (Or.inl hc)
  · exact Or.inr (Or.inr (Or.inr hc))
  · decide
  · decide

theorem isDigit_of_isNameStart {c : Char} (hc : isNameStart c) : c.isDigit = false := by
  have h := toNat_of_isNameStart hc
  by_contra hd
  simp only [Bool.not_eq_false, Char.isDigit, Bool.and_eq_true, decide_eq_true_eq, ge_iff_le,
    UInt32.le_iff_toNat_le] at hd
  have hd' : 48 ≤ c.toNat ∧ c.toNat ≤ 57 := hd
  omega

theorem isBlank_of_isNameStart {c : Char} (hc : isNameStart c) : isBlank c = false := by
  have h := toNat_of_isNameStart hc
  simp only [isBlank, blankRanges, List.any_eq_false, List.forall_mem_cons, Bool.and_eq_true,
    decide_eq_true_eq, List.not_mem_nil, false_imp_iff, implies_true, and_true]
  omega

/-- What begins with the start of a name is a name. -/
theorem readPiece_of_isNameStart {c : Char} (hc : isNameStart c) (cs : List Char) :
    readPiece c cs = .ok ⟨.identifier (String.ofList (c :: cs.takeWhile isNamePart)),
      c :: cs.takeWhile isNamePart, cs.dropWhile isNamePart⟩ := by
  have hpair : cs.head?.bind (Symbol.ofPair? c) = none := by
    cases cs with
    | nil => rfl
    | cons d ds => exact ofPair?_of_isNameStart hc d
  have hquote : ¬ (c = '"' ∨ c = '\'') := by
    rintro (rfl | rfl) <;> cases hc
  unfold readPiece
  simp only [hpair, ofChar?_of_isNameStart hc, if_neg hquote, isDigit_of_isNameStart hc, hc,
    Bool.false_eq_true, if_false, if_true]

theorem isPlain_identifier {name : String} {c : Char} {cs : List Char} (h : name.toList = c :: cs)
    (hc : isNameStart c) (hcs : ∀ d ∈ cs, isNamePart d) : (Lexeme.identifier name).IsPlain := by
  intro rest hrest
  have hslash : c ≠ '/' := by
    rintro rfl
    cases hc
  have htake : (cs ++ rest).takeWhile isNamePart = cs := by
    rw [List.takeWhile_append_of_pos hcs]
    cases hrest with
    | ending => simp
    | space => simp [show isNamePart ' ' = false by decide]
  have hdrop : (cs ++ rest).dropWhile isNamePart = rest := by
    rw [List.dropWhile_append_of_pos hcs]
    cases hrest with
    | ending => rfl
    | space => simp [show isNamePart ' ' = false by decide]
  refine ⟨c, cs ++ rest, by rw [Lexeme.shown, h]; rfl, isBlank_of_isNameStart hc,
    fun hc => hslash hc.1, ?_⟩
  rw [readPiece_of_isNameStart hc, htake, hdrop, Lexeme.shown, h, ← h, String.ofList_toList]

/-- Lexemes as a text, with a space in front of each. -/
def spaced (ls : List Lexeme) : List Char :=
  ls.flatMap fun l => ' ' :: l.shown.toList

theorem spaced_spaced (ls : List Lexeme) : Spaced (spaced ls) := by
  cases ls with
  | nil => exact .ending
  | cons l ls => exact .space _

theorem splitGap_false_of_front {c : Char} {cs : List Char} (hblank : isBlank c = false)
    (hcomment : ¬ (c = '/' ∧ cs.head? = some '/')) : splitGap false (c :: cs) = ([], c :: cs) := by
  unfold splitGap
  simp [hblank, hcomment]

theorem splitGap_false_space (cs : List Char) :
    (splitGap false (' ' :: cs)).2 = (splitGap false cs).2 := by
  have hblank : isBlank ' ' = true := by decide
  rw [splitGap]
  simp [hblank]

theorem scanFrom_of_splitGap_nil {cs : List Char} (h : (splitGap false cs).2 = [])
    (p : Position) : scanFrom p cs = ⟨[], .complete (p.after (splitGap false cs).1)⟩ := by
  rw [scanFrom]
  split
  · rfl
  next hcons =>
    rw [h] at hcons
    cases hcons

theorem scanFrom_of_splitGap_cons {c : Char} {cs tail : List Char} {piece : Piece}
    (h : (splitGap false cs).2 = c :: tail) (hread : readPiece c tail = .ok piece)
    (p : Position) : scanFrom p cs =
      (scanFrom ((p.after (splitGap false cs).1).after piece.span) piece.rest).cons
        ⟨piece.lexeme, p.after (splitGap false cs).1⟩ := by
  rw [scanFrom]
  split
  next hnil =>
    rw [h] at hnil
    cases hnil
  next hcons =>
    rw [h] at hcons
    cases hcons
    split
    next hfault =>
      rw [hread] at hfault
      cases hfault
    next hpiece =>
      rw [hread] at hpiece
      cases hpiece
      rfl

/-- **Plain lexemes are read back** from the text that they make up. -/
theorem scanFrom_spaced {ls : List Lexeme} (h : ∀ l ∈ ls, l.IsPlain) (p : Position) :
    (scanFrom p (spaced ls)).tokens.map Token.lexeme = ls ∧
      ∃ q, (scanFrom p (spaced ls)).ending = .complete q := by
  induction ls generalizing p with
  | nil =>
    unfold scanFrom
    exact ⟨rfl, _, rfl⟩
  | cons l ls ih =>
    obtain ⟨c, cs, hcs, hblank, hcomment, hread⟩ :=
      h l List.mem_cons_self (spaced ls) (spaced_spaced ls)
    have hgap : (splitGap false (spaced (l :: ls))).2 = c :: cs := by
      show (splitGap false (' ' :: (l.shown.toList ++ spaced ls))).2 = c :: cs
      rw [splitGap_false_space, hcs, splitGap_false_of_front hblank hcomment]
    rw [scanFrom_of_splitGap_cons hgap hread]
    obtain ⟨htokens, q, hending⟩ := ih (fun l hl => h l (List.mem_cons_of_mem _ hl)) _
    exact ⟨congrArg (l :: ·) htokens, q, hending⟩

end Isa16
