import CoreLisp.Proofs.Form.Lines
import CoreLisp.Proofs.Token.Layout

/-!
# Layout does not matter to the reader

The reader looks at tokens and never at the text between them. So what is put in where a
token starts or stops leaves the forms as they are, and a fault too, which is reported
where its token is then.
-/
namespace CoreLisp.Form

open Token (Located Layout exists_scan_layout)

/-- Blanks and whole comments can be put in where a token starts or stops. The text then
has the same tokens, written with the same characters; those that start there or behind
are as many bytes further on as have been put in, and the others are where they were. It
is read as the same forms, or has the same fault, with the place of the token that is at
fault. -/
theorem layout_irrelevant (source w : String) (located : List Located)
    (scanned : Token.scan source = .ok located) (layout : Layout w.toList) (t : Located)
    (mem : t ∈ located) (p : Nat) (border : p = t.span.start ∨ p = t.span.stop) :
    ∃ a b, source = a ++ b ∧ a.utf8ByteSize = p ∧
      Token.scan (a ++ w ++ b) =
        .ok (located.map (·.mapSpan (Span.spread p w.utf8ByteSize))) ∧
      (∀ u ∈ located, ∀ lexeme rest, u.span.Holds source.toList lexeme rest → ∃ rest',
        (u.span.spread p w.utf8ByteSize).Holds (a ++ w ++ b).toList lexeme rest') ∧
      readAll (a ++ w ++ b) =
        (readAll source).mapError (·.mapSpan (Span.spread p w.utf8ByteSize)) := by
  obtain ⟨a, b, rfl, hplace, scanned', written⟩ := exists_scan_layout scanned layout mem border
  refine ⟨a, b, rfl, hplace, scanned', written, ?_⟩
  rw [readAll_of_scan scanned', readAll_of_scan scanned, ofTokens_mapSpan]

/-- A comment between `#t` and the symbol that `#tru` goes on with, and a bracket that is
closed by one of another kind behind it. -/
theorem layout_irrelevant_fallback :
    Token.scan "(#tru]" = .ok [⟨.opening .paren, ⟨0, 1⟩⟩, ⟨.boolean true, ⟨1, 3⟩⟩,
      ⟨.symbol "ru", ⟨3, 5⟩⟩, ⟨.closing .bracket, ⟨5, 6⟩⟩] ∧
    Layout ";é\n ".toList ∧
    ∃ a b, "(#tru]" = a ++ b ∧ a.utf8ByteSize = 3 ∧
      Token.scan (a ++ ";é\n " ++ b) = .ok [⟨.opening .paren, ⟨0, 1⟩⟩, ⟨.boolean true, ⟨1, 3⟩⟩,
        ⟨.symbol "ru", ⟨8, 10⟩⟩, ⟨.closing .bracket, ⟨10, 11⟩⟩] ∧
      readAll (a ++ ";é\n " ++ b) = .error (.mismatchedDelimiter ')' ']' ⟨10, 11⟩) := by
  have scanned : Token.scan "(#tru]" = .ok [⟨.opening .paren, ⟨0, 1⟩⟩, ⟨.boolean true, ⟨1, 3⟩⟩,
      ⟨.symbol "ru", ⟨3, 5⟩⟩, ⟨.closing .bracket, ⟨5, 6⟩⟩] := by rfl
  have layout : Layout ";é\n ".toList :=
    @Layout.comment ['é'] _ (by simp) (.blank (by decide) .none)
  obtain ⟨a, b, hsource, hplace, scanned', -, read⟩ := layout_irrelevant _ _ _ scanned layout
    ⟨.boolean true, ⟨1, 3⟩⟩ (by simp) 3 (.inr rfl)
  refine ⟨scanned, layout, a, b, hsource, hplace, scanned', ?_⟩
  rw [read]
  rfl

end CoreLisp.Form
