import CoreLisp.Proofs.Token.Spelling

/-!
# The longest token

`Spells` defines the tokens one by one: the characters that each may be written
with, and nothing about how a text is cut. Several tokens may start at one place,
such as `#t` and `#true`, or a number and the shorter numbers in front of it. The
token that is taken there is the longest of them, and none is taken only if none
starts there.
-/
namespace CoreLisp.Token

/-- The characters that a token may be written with. -/
inductive Spells : Token → List Char → Prop
  | opening (kind : Delimiter) : Spells (.opening kind) [kind.opener]
  | closing (kind : Delimiter) : Spells (.closing kind) [kind.closer]
  | shortTrue : Spells (.boolean true) "#t".toList
  | longTrue : Spells (.boolean true) "#true".toList
  | shortFalse : Spells (.boolean false) "#f".toList
  | longFalse : Spells (.boolean false) "#false".toList
  | undefined : Spells .undefined "#undefined".toList
  | integer {ds : List Char} : ds ≠ [] → (∀ d ∈ ds, d.isDigit) →
      Spells (.integer (String.ofList ds)) ds
  | symbol {cs : List Char} : IsSymbol cs → Spells (.symbol (String.ofList cs)) cs

variable {cs ds text lexeme : List Char} {token token' : Token}

/-- A run of characters of a class stops where another class begins. -/
theorem stop_dropWhile (p : Char → Bool) (text : List Char) :
    ∀ d ∈ (text.dropWhile p).head?, p d = false := by
  intro d hd
  have hstop := List.head?_dropWhile_not p text
  rw [Option.mem_def.mp hd] at hstop
  exact hstop

/-- No spelling in the table is the beginning of a later one. -/
theorem fixed_ordered : fixed.Pairwise fun a b => ¬ a.1 <+: b.1 := by decide

/-- The first spelling of the table that is found at the start of a text is the longest
one there. -/
theorem exists_fixed_length_le (mem : (cs, token) ∈ fixed) (starts : cs <+: text) :
    ∃ token' lexeme, leading text = some (token', lexeme) ∧ cs.length ≤ lexeme.length := by
  have hcs : cs.isPrefixOf text := List.isPrefixOf_iff_prefix.mpr starts
  have isSome : (fixed.find? (·.1.isPrefixOf text)).isSome :=
    List.find?_isSome.mpr ⟨(cs, token), mem, hcs⟩
  obtain ⟨⟨lexeme, token'⟩, hfound⟩ := Option.isSome_iff_exists.mp isSome
  refine ⟨token', lexeme, by simp only [leading, hfound], ?_⟩
  obtain ⟨hlexeme, before, after, hfixed, hbefore⟩ := List.find?_eq_some_iff_append.mp hfound
  have ordered := hfixed ▸ fixed_ordered
  have later := (List.pairwise_cons.mp (List.pairwise_append.mp ordered).2.1).1
  rw [hfixed] at mem
  rcases List.mem_append.mp mem with mem | mem
  · have hmissed := hbefore _ mem
    simp [hcs] at hmissed
  · rcases List.mem_cons.mp mem with heq | mem
    · cases heq
      exact Nat.le_refl _
    · -- both start the text, and the one that was found does not start the other
      rcases List.prefix_or_prefix_of_prefix (List.isPrefixOf_iff_prefix.mp hlexeme) starts with
        hle | hle
      · exact absurd hle (later _ mem)
      · exact hle.length_le

theorem exists_digits_length_le (hne : cs ≠ []) (hdigits : ∀ d ∈ cs, d.isDigit)
    (starts : cs <+: text) :
    ∃ token lexeme, leading text = some (token, lexeme) ∧ cs.length ≤ lexeme.length := by
  obtain ⟨rest, rfl⟩ := starts
  have hrun : ∀ d ∈ cs ++ rest.takeWhile Char.isDigit, d.isDigit :=
    List.forall_mem_append.mpr ⟨hdigits, fun d hd => List.mem_takeWhile_imp hd⟩
  have hleading := leading_digits (by simp [hne]) hrun (stop_dropWhile Char.isDigit rest)
  rw [List.append_assoc, List.takeWhile_append_dropWhile] at hleading
  exact ⟨_, _, hleading, by simp⟩

theorem IsSymbol.append (hcs : IsSymbol cs) (hds : ∀ d ∈ ds, continuesSymbol d) :
    IsSymbol (cs ++ ds) := by
  obtain ⟨c, rest, hc, hrest, hcs⟩ := hcs
  refine ⟨c, rest ++ ds, hc, List.forall_mem_append.mpr ⟨hrest, hds⟩, ?_⟩
  rcases hcs with rfl | rfl
  · exact .inl rfl
  · exact .inr rfl

theorem exists_symbol_length_le (hsymbol : IsSymbol cs) (starts : cs <+: text) :
    ∃ token lexeme, leading text = some (token, lexeme) ∧ cs.length ≤ lexeme.length := by
  obtain ⟨rest, rfl⟩ := starts
  have hrun : IsSymbol (cs ++ rest.takeWhile continuesSymbol) :=
    hsymbol.append fun d hd => List.mem_takeWhile_imp hd
  have hleading := leading_symbol hrun (stop_dropWhile continuesSymbol rest)
  rw [List.append_assoc, List.takeWhile_append_dropWhile] at hleading
  exact ⟨_, _, hleading, by simp⟩

/-- A token has a fixed spelling, or it is a run of digits or a symbol. -/
theorem Spells.fixed_or_run (spells : token.Spells cs) :
    (cs, token) ∈ fixed ∨ (cs ≠ [] ∧ ∀ d ∈ cs, d.isDigit) ∨ IsSymbol cs := by
  cases spells with
  | opening kind | closing kind => cases kind <;> exact .inl (by decide)
  | shortTrue | longTrue | shortFalse | longFalse | undefined => exact .inl (by decide)
  | integer hne hdigits => exact .inr (.inl ⟨hne, hdigits⟩)
  | symbol hsymbol => exact .inr (.inr hsymbol)

/-- What is taken is at least as long as any token that starts there. -/
theorem Spells.exists_length_le (spells : token.Spells cs) (starts : cs <+: text) :
    ∃ token' lexeme, leading text = some (token', lexeme) ∧ cs.length ≤ lexeme.length := by
  rcases spells.fixed_or_run with mem | ⟨hne, hdigits⟩ | hsymbol
  · exact exists_fixed_length_le mem starts
  · exact exists_digits_length_le hne hdigits starts
  · exact exists_symbol_length_le hsymbol starts

theorem spells_of_mem_fixed (mem : (cs, token) ∈ fixed) : token.Spells cs := by
  simp only [fixed, List.mem_cons, Prod.mk.injEq, List.not_mem_nil, or_false] at mem
  rcases mem with ⟨rfl, rfl⟩ | ⟨rfl, rfl⟩ | ⟨rfl, rfl⟩ | ⟨rfl, rfl⟩ | ⟨rfl, rfl⟩ | ⟨rfl, rfl⟩ |
    ⟨rfl, rfl⟩ | ⟨rfl, rfl⟩ | ⟨rfl, rfl⟩ | ⟨rfl, rfl⟩ | ⟨rfl, rfl⟩
  · exact .opening .paren
  · exact .opening .bracket
  · exact .opening .brace
  · exact .closing .paren
  · exact .closing .bracket
  · exact .closing .brace
  · exact .longTrue
  · exact .shortTrue
  · exact .longFalse
  · exact .shortFalse
  · exact .undefined

/-- What is taken spells the token. -/
theorem spells_of_leading (hleading : leading text = some (token, lexeme)) :
    token.Spells lexeme := by
  have lexical := lexical_of_leading hleading
  unfold leading at hleading
  split at hleading
  · rename_i hfound
    cases hleading
    exact spells_of_mem_fixed (List.mem_of_find?_eq_some hfound)
  · split at hleading
    · cases hleading
      obtain ⟨hne, hdigits⟩ := lexical
      rw [String.toList_ofList] at hne hdigits
      exact .integer hne hdigits
    · cases hleading
      have hsymbol : IsSymbol _ := lexical
      rw [String.toList_ofList] at hsymbol
      exact .symbol hsymbol
    · cases hleading

/-- A token that is the whole text is taken. -/
theorem Spells.leading_self (spells : token.Spells cs) : leading cs = some (token, cs) := by
  cases spells with
  | opening kind => cases kind <;> rfl
  | closing kind => cases kind <;> rfl
  | shortTrue | longTrue | shortFalse | longFalse | undefined => rfl
  | integer hne hdigits =>
      have hleading := leading_integer hne hdigits apart_nil
      rwa [List.append_nil] at hleading
  | symbol hsymbol =>
      have hleading := leading_symbol hsymbol apart_nil
      rwa [List.append_nil] at hleading

/-- The characters determine the token. -/
theorem Spells.unique (first : token.Spells cs) (second : token'.Spells cs) : token = token' := by
  have same := first.leading_self.symm.trans second.leading_self
  exact congrArg Prod.fst (Option.some.inj same)

/-- No token starts with a blank or with the mark of a comment. -/
theorem Spells.starts_apart {c : Char} (spells : token.Spells (c :: cs)) :
    ¬ (isBlank c ∨ c = ';') := by
  intro hc
  have hleading := spells.leading_self
  rw [leading_eq_none hc] at hleading
  cases hleading

theorem leading_eq_some_iff : leading text = some (token, lexeme) ↔
    token.Spells lexeme ∧ lexeme <+: text ∧
      ∀ other cs, Spells other cs → cs <+: text → cs.length ≤ lexeme.length := by
  constructor
  · intro hleading
    obtain ⟨-, starts⟩ := leading_prefix hleading
    refine ⟨spells_of_leading hleading, starts, ?_⟩
    intro other cs spells starts
    obtain ⟨_, _, hfound, hle⟩ := spells.exists_length_le starts
    rw [hleading] at hfound
    cases hfound
    exact hle
  · intro taken
    obtain ⟨spells, starts, longest⟩ := taken
    obtain ⟨found, taken, hfound, hle⟩ := spells.exists_length_le starts
    obtain ⟨-, hprefix⟩ := leading_prefix hfound
    have hge := longest found taken (spells_of_leading hfound) hprefix
    -- both start the text and are equally long
    have same : lexeme = taken :=
      (List.prefix_of_prefix_length_le starts hprefix hle).eq_of_length (Nat.le_antisymm hle hge)
    subst same
    rw [hfound, (spells_of_leading hfound).unique spells]

theorem leading_eq_none_iff : leading text = none ↔
    ∀ token cs, Spells token cs → ¬ cs <+: text := by
  constructor
  · intro hleading token cs spells starts
    obtain ⟨_, _, hfound, -⟩ := spells.exists_length_le starts
    rw [hleading] at hfound
    cases hfound
  · intro never
    cases hleading : leading text with
    | none => rfl
    | some found =>
        obtain ⟨token, lexeme⟩ := found
        obtain ⟨-, starts⟩ := leading_prefix hleading
        exact absurd starts (never _ _ (spells_of_leading hleading))

end CoreLisp.Token
