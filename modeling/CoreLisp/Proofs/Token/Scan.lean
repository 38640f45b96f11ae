import CoreLisp.Proofs.Token.Spelling
import CoreLisp.Token.Scan

/-!
# Cutting a text token by token

`Lexes` says which tokens a text is cut into, leaving aside where they stand. A
blank in front changes nothing, and a token in front is cut off if it is the
longest one there; so the tokens of a text are found from its end to its
beginning, one at a time.
-/
namespace CoreLisp.Token

/-- The text is cut into these tokens, at whatever byte it starts. -/
def Lexes (cs : List Char) (tokens : List Token) : Prop :=
  ∀ pos, ∃ located, scanFrom [] pos 0 cs = .ok located ∧ located.map (·.token) = tokens

variable {c : Char} {cs rest lexeme : List Char} {token : Token} {tokens : List Token}
variable {pos : Nat}

/-- The token in front is cut off, and the scanner goes on behind it. -/
theorem scanFrom_token (hleading : leading (lexeme ++ rest) = some (token, lexeme)) :
    scanFrom [] pos 0 (lexeme ++ rest) = (scanFrom [] (pos + Text.bytes lexeme) 0 rest).map
      ([⟨token, ⟨pos, pos + Text.bytes lexeme⟩⟩] ++ ·) := by
  obtain ⟨hne, -⟩ := leading_prefix hleading
  obtain ⟨c, cs, rfl⟩ := List.exists_cons_of_ne_nil hne
  have hstart : ¬ (isBlank c ∨ c = ';') := by
    intro hc
    rw [List.cons_append, leading_eq_none hc] at hleading
    cases hleading
  obtain ⟨hblank, hcomment⟩ := not_or.mp hstart
  rw [List.cons_append] at hleading ⊢
  rw [scanFrom, if_neg hblank, if_neg hcomment, hleading]
  simp only [List.length_cons, Nat.add_sub_cancel]
  -- the rest of the lexeme is counted down, and the token stands in front of what is found
  rw [scanFrom_found, scanFrom_skip, List.take_left, List.drop_left, Nat.add_assoc,
    ← Text.bytes_cons]
  rfl

theorem lexes_nil : Lexes [] [] := fun _ => ⟨[], rfl, rfl⟩

theorem Lexes.blank (hc : isBlank c) (hcs : Lexes cs tokens) : Lexes (c :: cs) tokens := by
  intro pos
  obtain ⟨located, hscan, htokens⟩ := hcs (pos + c.utf8Size)
  refine ⟨located, ?_, htokens⟩
  rw [scanFrom, if_pos hc, hscan]

theorem Lexes.cons (hleading : leading (lexeme ++ rest) = some (token, lexeme))
    (hrest : Lexes rest tokens) : Lexes (lexeme ++ rest) (token :: tokens) := by
  intro pos
  obtain ⟨located, hscan, htokens⟩ := hrest (pos + Text.bytes lexeme)
  refine ⟨⟨token, ⟨pos, pos + Text.bytes lexeme⟩⟩ :: located, ?_, ?_⟩
  · rw [scanFrom_token hleading, hscan]
    rfl
  · rw [List.map_cons, htokens]

/-- The tokens of a text are all lexical. Induction on the text, with the tokens
found so far. -/
theorem lexical_of_scanFrom {found located : List Located} {pos skip : Nat}
    (ok : scanFrom found pos skip cs = .ok located) (hfound : ∀ t ∈ found, t.token.Lexical) :
    ∀ t ∈ located, t.token.Lexical := by
  induction cs generalizing found pos skip with
  | nil =>
      rw [scanFrom] at ok
      cases ok
      intro t ht
      exact hfound t (List.mem_reverse.mp ht)
  | cons c cs ih =>
      cases skip with
      | succ skip =>
          rw [scanFrom] at ok
          exact ih ok hfound
      | zero =>
          rw [scanFrom] at ok
          split at ok
          · exact ih ok hfound
          · split at ok
            · exact ih ok hfound
            · split at ok
              · rename_i token lexeme hleading
                have hnew := lexical_of_leading hleading
                exact ih ok (List.forall_mem_cons.mpr ⟨hnew, hfound⟩)
              · cases ok

theorem lexical_of_scan {source : String} {located : List Located}
    (ok : scan source = .ok located) : ∀ t ∈ located, t.token.Lexical :=
  lexical_of_scanFrom ok nofun

end CoreLisp.Token
