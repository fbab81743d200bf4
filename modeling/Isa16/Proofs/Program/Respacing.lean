import Isa16.Proofs.Program.Placeless
import Isa16.Proofs.Program.Spelling

/-!
# Lexemes written anew

* `Lexeme.written`: a lexeme as it may be written, a string literal by its quoted form.
* `respaced`: the text of lexemes with one space between any two.
* `cuts_written`: what a lexeme of a text is written as is cut into the lexeme alone.
* **`parse_respaced`**: a text and its lexemes written anew have the same lexemes and are read the
  same way.
-/

namespace Isa16

/-- The lexeme as it may be written: a string literal in its quoted form, all else as shown. -/
def Lexeme.written : Lexeme → String
  | text contents => Snippet.stringLiteral contents
  | l => l.shown

/-- The lexemes with one space between any two. -/
def respaced (ls : List Lexeme) : String :=
  " ".intercalate (ls.map Lexeme.written)

variable {c : Char} {cs rest span : List Char} {l : Lexeme} {ls : List Lexeme} {b o : Bool}

/-- **What a lexeme is written as is cut into the lexeme alone**, however it was written in the text
that it is from. -/
theorem cuts_written (h : readPiece c cs = .ok ⟨l, span, rest⟩) :
    Cuts false l.written.toList [l] false := by
  unfold readPiece at h
  split at h
  · cases h
    exact cuts_of_isPlain (isPlain_symbol _)
  split at h
  · cases h
    exact cuts_of_isPlain (isPlain_symbol _)
  split_ifs at h with hquote hdigit hstart
  · obtain ⟨_, -, h⟩ := map_eq_ok.mp h
    cases h
    exact cuts_text _
  · obtain ⟨r, hn, h⟩ := map_eq_ok.mp h
    cases h
    show Cuts false (String.ofList r.1).toList _ false
    rw [String.toList_ofList]
    exact cuts_of_readNumber hdigit hn
  · cases h
    exact cuts_of_isPlain (isPlain_identifier String.toList_ofList hstart
      fun _ => List.mem_takeWhile_imp)

theorem Cuts.written (h : Cuts b cs ls o) : ∀ l ∈ ls, Cuts false l.written.toList [l] false := by
  induction h with
  | gap => simp
  | piece _ hread _ ih => exact List.forall_mem_cons.mpr ⟨cuts_written hread, ih⟩

theorem cuts_respaced (h : ∀ l ∈ ls, Cuts false l.written.toList [l] false) :
    Cuts false (respaced ls).toList ls false := by
  induction ls with
  | nil => exact cuts_nil
  | cons l ls ih =>
    obtain ⟨hl, hls⟩ := List.forall_mem_cons.mp h
    cases ls with
    | nil => simpa [respaced] using hl
    | cons l' ls =>
      have htext : (respaced (l :: l' :: ls)).toList =
          l.written.toList ++ ' ' :: (respaced (l' :: ls)).toList := by
        simp [respaced, String.intercalate_cons_cons]
      rw [htext]
      exact hl.append (border_of_mem (by decide)) (cuts_space (ih hls))

/-- **Layout does not matter**: a text and its lexemes written with single spaces have the same
lexemes, and they are read as the same statements or have the same fault. -/
theorem parse_respaced {source : String} (h : (scan source).Yields ls) :
    (scan (respaced ls)).Yields ls ∧ SameReading (parse source) (parse (respaced ls)) := by
  obtain ⟨o, hcuts⟩ := yields_iff_cuts.mp h
  have hyields : (scan (respaced ls)).Yields ls :=
    yields_iff_cuts.mpr ⟨false, cuts_respaced hcuts.written⟩
  exact ⟨hyields, sameReading_of_yields h hyields⟩

/-- Single quotes, an escape, a comment and a marked number. -/
theorem parse_respaced_literals :
    let source := "a='\\u\x7b41\x7d\"' // b\n+0x1f;"
    let ls : List Lexeme := [.identifier "a", .symbol .equals, .text "A\"", .symbol .plus,
      .number "0x1f", .symbol .semicolon]
    (scan source).Yields ls ∧ respaced ls = "a = \"A\\\"\" + 0x1f ;" ∧
      (scan (respaced ls)).Yields ls ∧ SameReading (parse source) (parse (respaced ls)) := by
  intro source ls
  have hsource : (scan source).Yields ls := ⟨by decide +kernel, ⟨2, 7⟩, by decide +kernel⟩
  exact ⟨hsource, by cbv, parse_respaced hsource⟩

end Isa16
