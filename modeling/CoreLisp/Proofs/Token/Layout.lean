import CoreLisp.Proofs.Token.Lines

/-!
# Layout between tokens

Where a token starts or stops, blanks and whole comments can be put in. No token goes
on across such a place, with what is put in or without, and none can begin there: so the
tokens in front are cut off where they were, and those behind are only further on. A
token need not be followed by a blank for this. In `#tru` the longest token is `#t`, and
it is the longest one too when something comes between it and `ru`.

The one thing that what is put in could change is a comment in front of it that goes on
to the end of the text. But no token starts or stops behind such a comment.
-/
namespace CoreLisp

open Text (bytes)

/-- Where a range is when `n` more bytes have been put in at byte `p`. -/
def Span.spread (p n : Nat) (s : Span) : Span := if p ≤ s.start then s.shift n else s

theorem Span.spread_of_le {p n : Nat} {s : Span} (hp : p ≤ s.start) : s.spread p n = s.shift n :=
  if_pos hp

theorem Span.spread_of_lt {p n : Nat} {s : Span} (hp : s.start < p) : s.spread p n = s :=
  if_neg (Nat.not_le.mpr hp)

namespace Text

theorem bytes_pos {cs : List Char} (hne : cs ≠ []) : 0 < bytes cs := by
  obtain ⟨c, cs, rfl⟩ := List.exists_cons_of_ne_nil hne
  exact Nat.lt_of_lt_of_le c.utf8Size_pos (Nat.le_add_right _ _)

/-- Of two beginnings of a text, the one with fewer bytes is the beginning of the other. -/
theorem prefix_of_bytes_le {text as bs : List Char} (has : as <+: text) (hbs : bs <+: text)
    (hle : bytes as ≤ bytes bs) : as <+: bs := by
  rcases List.prefix_or_prefix_of_prefix has hbs with shorter | ⟨more, rfl⟩
  · exact shorter
  · have hmore : more = [] := by
      refine Decidable.byContradiction fun hne => ?_
      have hpos := bytes_pos hne
      rw [bytes_append] at hle
      omega
    simp [hmore]

end Text

/-- A range that is not divided holds the same stretch after something has been put in. -/
theorem Span.Holds.spread {span : Span} {front back stretch rest : List Char} (w : List Char)
    (holds : span.Holds (front ++ back) stretch rest) (hne : stretch ≠ [])
    (apart : span.stop ≤ bytes front ∨ bytes front ≤ span.start) :
    ∃ rest', (span.spread (bytes front) (bytes w)).Holds (front ++ (w ++ back)) stretch rest' := by
  have hlt := holds.nonempty hne
  obtain ⟨before, htext, rfl⟩ := holds
  have hfront : front <+: before ++ (stretch ++ rest) := ⟨back, htext⟩
  rcases apart with hstop | hstart
  · have hbefore : before ++ stretch <+: before ++ (stretch ++ rest) := ⟨rest, by simp⟩
    rw [← Text.bytes_append] at hstop
    obtain ⟨more, rfl⟩ := Text.prefix_of_bytes_le hbefore hfront hstop
    rw [Text.bytes_append before stretch] at hstop
    rw [Span.spread_of_lt (Nat.lt_of_lt_of_le hlt (by simp))]
    exact ⟨more ++ (w ++ back), before, by simp, rfl⟩
  · obtain ⟨more, rfl⟩ := Text.prefix_of_bytes_le hfront (List.prefix_append before _) hstart
    rw [List.append_assoc, List.append_cancel_left_eq] at htext
    rw [Span.spread_of_le hstart]
    refine ⟨rest, front ++ (w ++ more), by simp [htext], ?_⟩
    simp only [Span.shift, Text.bytes_append]
    congr 1 <;> omega

namespace Token

/-- Blanks, and comments that each end with their line. -/
inductive Layout : List Char → Prop
  | none : Layout []
  | blank {c : Char} {w : List Char} : isBlank c → Layout w → Layout (c :: w)
  | comment {line w : List Char} : (∀ c ∈ line, c ≠ '\n') → Layout w →
      Layout (';' :: (line ++ '\n' :: w))

variable {c : Char} {cs text front back w stretch rest lexeme : List Char} {token : Token}
variable {tile : Tile} {tiles : Tiles} {t : Located} {located : List Located} {pos p n : Nat}

theorem Layout.scanFrom (layout : Layout w) :
    scanFrom [] pos 0 (w ++ rest) = Token.scanFrom [] (pos + bytes w) 0 rest := by
  induction layout generalizing pos with
  | none => rfl
  | blank hc _ ih =>
      rw [List.cons_append, Token.scanFrom, if_pos hc, ih, Text.bytes_cons, Nat.add_assoc]
  | @comment line w hline _ ih =>
      have hend : ∀ d ∈ ('\n' :: w ++ rest).head?, d = '\n' := by simp
      have hblank : isBlank '\n' := by decide
      rw [← List.cons_append, List.append_assoc, scanFrom_comment hline hend, List.cons_append,
        Token.scanFrom, if_pos hblank, ih]
      simp only [List.cons_append, Text.bytes_cons, Text.bytes_append, Nat.add_assoc]

/-- Layout starts with a character that no token contains. -/
theorem Layout.starts_gap (layout : Layout (c :: w)) : isBlank c ∨ c = ';' := by
  cases layout with
  | blank hc _ => exact .inl hc
  | comment _ _ => exact .inr rfl

/-- The longest token of a text is the longest one of every part that it starts. -/
theorem leading_of_append (hleading : leading (text ++ rest) = some (token, lexeme))
    (starts : lexeme <+: text) : leading text = some (token, lexeme) := by
  obtain ⟨spells, -, longest⟩ := leading_eq_some_iff.mp hleading
  refine leading_eq_some_iff.mpr ⟨spells, starts, ?_⟩
  intro other cs hother hcs
  exact longest other cs hother (hcs.trans (List.prefix_append text rest))

/-- A token is cut off as before when layout is put in somewhere behind it. -/
theorem Layout.leading_append (layout : Layout w)
    (hleading : leading (lexeme ++ (front ++ back)) = some (token, lexeme)) :
    leading (lexeme ++ (front ++ (w ++ back))) = some (token, lexeme) := by
  cases w with
  | nil => exact hleading
  | cons c w =>
      rw [← List.append_assoc] at hleading
      rw [← List.append_assoc, List.cons_append, leading_append_gap layout.starts_gap]
      exact leading_of_append hleading (List.prefix_append lexeme front)

/-- A tile is scanned as before when layout is put in somewhere behind it, unless the tile
is a comment that would then go on. -/
theorem Layout.scanFrom_tile (layout : Layout w) (longest : tile.Longest stretch (front ++ back))
    (stops : tile = .comment → front = [] → ∃ d ∈ back.head?, d ≠ '\n') :
    Token.scanFrom [] pos 0 (stretch ++ (front ++ (w ++ back))) =
      (Token.scanFrom [] (pos + bytes stretch) 0 (front ++ (w ++ back))).map
        (tile.located pos stretch ++ ·) := by
  cases tile with
  | blanks =>
      cases longest.spells with
      | blanks _ hblank => exact (scanFrom_blanks hblank).trans (map_nil_append _).symm
  | comment =>
      cases longest.spells with
      | comment hline =>
          have hend := longest.stop_of_comment
          cases front with
          | nil =>
              obtain ⟨d, hd, hne⟩ := stops rfl rfl
              exact absurd (hend d hd) hne
          | cons d front =>
              have hend' : ∀ x ∈ (d :: front ++ (w ++ back)).head?, x = '\n' := hend
              exact (scanFrom_comment hline hend').trans (map_nil_append _).symm
  | token t => exact scanFrom_token (layout.leading_append (longest_token_iff.mp longest))

/-- Byte `p` divides the text into these two parts and none of its tokens, and with the
layout between the parts the same tokens are found, those of the second part moved. -/
structure Parts (w : List Char) (pos p : Nat) (tiles : Tiles) (front back : List Char) : Prop where
  place : pos + bytes front = p
  apart : ∀ u ∈ locate pos tiles, u.span.stop ≤ p ∨ p ≤ u.span.start
  scanned : scanFrom [] pos 0 (front ++ (w ++ back)) =
    .ok ((locate pos tiles).map (·.mapSpan (Span.spread p (bytes w))))

/-- A token starts with a character that is not the end of a line. -/
theorem Tile.Longest.starts (longest : Tile.Longest (.token token) lexeme rest) :
    ∃ d ∈ (lexeme ++ rest).head?, d ≠ '\n' := by
  obtain ⟨d, ds, rfl⟩ := List.exists_cons_of_ne_nil longest.spells.ne_nil
  cases longest.spells with
  | token spells =>
      refine ⟨d, rfl, ?_⟩
      rintro rfl
      exact spells.starts_apart (.inl (by decide))

theorem Tile.of_mem_located (mem : t ∈ tile.located pos stretch) :
    tile = .token t.token ∧ t.span = ⟨pos, pos + bytes stretch⟩ := by
  cases tile with
  | blanks | comment => cases mem
  | token =>
      rw [List.mem_singleton.mp mem]
      exact ⟨rfl, rfl⟩

/-- In front of all tiles, layout moves every token. -/
theorem Cuts.parts_nil (cuts : Cuts text tiles []) (layout : Layout w) :
    Parts w pos pos tiles [] text := by
  have later := (increasing_locate tiles pos).1
  refine ⟨rfl, fun u mem => .inr (later u mem), ?_⟩
  have moved := scanFrom_shift (bytes w) [] pos 0 text
  have scanned : Token.scanFrom [] pos 0 text = .ok (locate pos tiles ++ []) := cuts.scanFrom
  rw [List.append_nil] at scanned
  rw [List.nil_append, layout.scanFrom, ← List.map_nil, moved, scanned]
  refine congrArg Except.ok (List.map_congr_left fun u mem => ?_)
  exact congrArg (Located.mk u.token) (Span.spread_of_le (later u mem)).symm

/-- Behind a tile, layout leaves its token where it is. -/
theorem Parts.cons (parts : Parts w (pos + bytes stretch) p tiles front back) (layout : Layout w)
    (longest : tile.Longest stretch (front ++ back))
    (stops : tile = .comment → front = [] → ∃ d ∈ back.head?, d ≠ '\n') :
    Parts w pos p ((tile, stretch) :: tiles) (stretch ++ front) back := by
  have hplace := parts.place
  have hpos := Text.bytes_pos longest.spells.ne_nil
  refine ⟨?_, ?_, ?_⟩
  · rw [Text.bytes_append, ← Nat.add_assoc, hplace]
  · refine List.forall_mem_append.mpr ⟨?_, parts.apart⟩
    intro u mem
    obtain ⟨-, hspan⟩ := Tile.of_mem_located mem
    rw [hspan]
    exact .inl (Nat.le_of_add_right_le hplace.le)
  · have kept : (tile.located pos stretch).map (·.mapSpan (Span.spread p (bytes w))) =
        tile.located pos stretch := by
      refine (List.map_congr_left fun u mem => ?_).trans (List.map_id _)
      obtain ⟨-, hspan⟩ := Tile.of_mem_located mem
      have hlt : u.span.start < p := by
        rw [hspan]
        exact Nat.lt_of_lt_of_le (Nat.lt_add_of_pos_right hpos) (Nat.le_of_add_right_le hplace.le)
      exact congrArg (Located.mk u.token) (Span.spread_of_lt hlt)
    rw [List.append_assoc, layout.scanFrom_tile longest stops, parts.scanned, locate,
      List.map_append, kept]
    rfl

/-- A text can be divided where a token of it starts or stops. Induction on the tiles: the
place is in front of the first one, behind it, or farther on. -/
theorem Cuts.exists_parts (cuts : Cuts text tiles []) (layout : Layout w)
    (mem : t ∈ locate pos tiles) (border : p = t.span.start ∨ p = t.span.stop) :
    ∃ front back, text = front ++ back ∧ Parts w pos p tiles front back ∧
      (front = [] → ∃ d ∈ back.head?, d ≠ '\n') := by
  generalize hstop : [] = stop at cuts
  induction cuts generalizing pos with
  | done => cases mem
  | @next tile stretch rest stop tiles longest cuts ih =>
      subst hstop
      rcases List.mem_append.mp mem with here | mem
      · obtain ⟨rfl, hspan⟩ := Tile.of_mem_located here
        rw [hspan] at border
        rcases border with rfl | rfl
        · exact ⟨[], stretch ++ rest, rfl, (Cuts.next longest cuts).parts_nil layout,
            fun _ => longest.starts⟩
        · have later : Parts w (pos + bytes stretch) _ tiles [] rest := cuts.parts_nil layout
          have parts := later.cons layout longest nofun
          rw [List.append_nil] at parts
          exact ⟨stretch, rest, rfl, parts, fun hnil => absurd hnil longest.spells.ne_nil⟩
      · obtain ⟨front, back, rfl, parts, stops⟩ := ih mem rfl
        refine ⟨stretch ++ front, back, (List.append_assoc _ _ _).symm,
          parts.cons layout longest fun _ => stops, ?_⟩
        intro hnil
        exact absurd (List.append_eq_nil_iff.mp hnil).1 longest.spells.ne_nil

/-- In a source text, layout can be put in where a token starts or stops. -/
theorem exists_scan_layout {source w : String} (scanned : scan source = .ok located)
    (layout : Layout w.toList) (mem : t ∈ located) (border : p = t.span.start ∨ p = t.span.stop) :
    ∃ a b, source = a ++ b ∧ a.utf8ByteSize = p ∧
      scan (a ++ w ++ b) = .ok (located.map (·.mapSpan (Span.spread p w.utf8ByteSize))) ∧
      ∀ u ∈ located, ∀ lexeme rest, u.span.Holds source.toList lexeme rest → ∃ rest',
        (u.span.spread p w.utf8ByteSize).Holds (a ++ w ++ b).toList lexeme rest' := by
  obtain ⟨tiles, cuts, rfl⟩ := scan_eq_ok_iff.mp scanned
  obtain ⟨front, back, htext, parts, -⟩ := cuts.exists_parts layout mem border
  have hsource : source = String.ofList front ++ String.ofList back := by
    rw [← String.ofList_append, ← htext, String.ofList_toList]
  have htext' : (String.ofList front ++ w ++ String.ofList back).toList =
      front ++ (w.toList ++ back) := by
    simp [String.toList_append]
  have hplace : bytes front = p := (Nat.zero_add _).symm.trans parts.place
  have hw : bytes w.toList = w.utf8ByteSize := by
    rw [Text.bytes_eq_utf8ByteSize, String.ofList_toList]
  refine ⟨_, _, hsource, (Text.bytes_eq_utf8ByteSize front).symm.trans hplace, ?_, ?_⟩
  · rw [scan, htext', parts.scanned, hw]
  · intro u hu lexeme rest holds
    have hne : lexeme ≠ [] := by
      rintro rfl
      have hlt := cuts.tiled.nonempty u hu
      obtain ⟨before, -, hspan⟩ := holds
      simp [hspan] at hlt
    rw [htext] at holds
    rw [htext', ← hplace, ← hw]
    exact holds.spread w.toList hne (hplace ▸ parts.apart u hu)

end Token

end CoreLisp
