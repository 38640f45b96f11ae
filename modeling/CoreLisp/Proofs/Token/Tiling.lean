import CoreLisp.Proofs.Token.Longest
import CoreLisp.Proofs.Token.Scan

/-!
# A text as a row of tiles

A tile is a run of blanks, a comment or a token. Cutting a text takes the longest tile
that starts it, then the longest one that starts what is left, and so on; it comes to
the end of the text or to a character with which no tile starts. `Cuts` is this rule as
a relation, and says nothing about bytes.

The scanner does the same and counts bytes. So what it finds are the tokens among the
tiles, each with the range of bytes that it covers, and what it complains about is the
one character that the tiles stop at.
-/
namespace CoreLisp

namespace Text

theorem bytes_eq_utf8ByteSize (cs : List Char) : bytes cs = (String.ofList cs).utf8ByteSize := by
  induction cs with
  | nil => rfl
  | cons c cs ih =>
      have hcons : String.ofList (c :: cs) = String.singleton c ++ String.ofList cs := by
        rw [String.singleton_eq_ofList, ← String.ofList_append, List.singleton_append]
      rw [bytes_cons, ih, hcons, String.utf8ByteSize_append, String.utf8ByteSize_singleton]

end Text

open Text (bytes)

/-- The range holds this stretch of the text, and `rest` is what comes after it. -/
def Span.Holds (text : List Char) (span : Span) (stretch rest : List Char) : Prop :=
  ∃ before, text = before ++ (stretch ++ rest) ∧
    span = ⟨bytes before, bytes before + bytes stretch⟩

/-- A range that holds a stretch of text starts and stops between two characters. -/
theorem Span.Holds.isValid {source : String} {span : Span} {stretch rest : List Char}
    (holds : span.Holds source.toList stretch rest) :
    (String.Pos.Raw.mk span.start).IsValid source ∧
      (String.Pos.Raw.mk span.stop).IsValid source := by
  obtain ⟨before, htext, rfl⟩ := holds
  have hsource : source = String.ofList before ++ String.ofList (stretch ++ rest) := by
    rw [← String.ofList_append, ← htext, String.ofList_toList]
  have hsource' : source = String.ofList (before ++ stretch) ++ String.ofList rest := by
    rw [hsource, ← String.ofList_append, ← String.ofList_append, List.append_assoc]
  constructor
  · exact String.Pos.Raw.isValid_iff_exists_append.mpr
      ⟨_, _, hsource, congrArg _ (Text.bytes_eq_utf8ByteSize before)⟩
  · have hbytes : Text.bytes before + Text.bytes stretch =
        (String.ofList (before ++ stretch)).utf8ByteSize := by
      rw [← Text.bytes_append, Text.bytes_eq_utf8ByteSize]
    exact String.Pos.Raw.isValid_iff_exists_append.mpr ⟨_, _, hsource', congrArg _ hbytes⟩

theorem Span.Holds.nonempty {span : Span} {text stretch rest : List Char}
    (holds : span.Holds text stretch rest) (hne : stretch ≠ []) : span.start < span.stop := by
  obtain ⟨before, -, rfl⟩ := holds
  obtain ⟨c, cs, rfl⟩ := List.exists_cons_of_ne_nil hne
  have := c.utf8Size_pos
  simp only [Text.bytes_cons]
  omega

namespace Token

/-- What a stretch of source text can be. -/
inductive Tile where
  | blanks
  | comment
  | token (t : Token)

namespace Tile

inductive Spells : Tile → List Char → Prop
  | blanks {cs : List Char} : cs ≠ [] → (∀ c ∈ cs, isBlank c) → Spells .blanks cs
  | comment {cs : List Char} : (∀ c ∈ cs, c ≠ '\n') → Spells .comment (';' :: cs)
  | token {t : Token} {cs : List Char} : t.Spells cs → Spells (.token t) cs

/-- In front of `rest`, no tile that starts with the stretch goes beyond it. -/
structure Longest (tile : Tile) (stretch rest : List Char) : Prop where
  spells : tile.Spells stretch
  longest : ∀ other cs, Spells other cs → cs <+: stretch ++ rest → cs.length ≤ stretch.length

/-- The tokens that a tile at byte `pos` gives: one or none. -/
def located (pos : Nat) (stretch : List Char) : Tile → List Located
  | token t => [⟨t, ⟨pos, pos + bytes stretch⟩⟩]
  | blanks | comment => []

end Tile

/-- Tiles with the characters that they cover. -/
abbrev Tiles := List (Tile × List Char)

/-- Cutting the text tile by tile leads to `stop`. -/
inductive Cuts : List Char → Tiles → List Char → Prop
  | done (text : List Char) : Cuts text [] text
  | next {tile : Tile} {stretch rest stop : List Char} {tiles : Tiles} :
      tile.Longest stretch rest → Cuts rest tiles stop →
      Cuts (stretch ++ rest) ((tile, stretch) :: tiles) stop

/-- No tile starts the text. -/
def Stuck (text : List Char) : Prop := ∀ tile cs, Tile.Spells tile cs → ¬ cs <+: text

/-- The characters that the tiles cover. -/
def covered (tiles : Tiles) : List Char := tiles.flatMap (·.2)

@[simp] theorem covered_nil : covered [] = [] := rfl

@[simp] theorem covered_cons (tile : Tile) (stretch : List Char) (tiles : Tiles) :
    covered ((tile, stretch) :: tiles) = stretch ++ covered tiles := rfl

/-- The tokens among the tiles, the first of which is at byte `pos`. -/
def locate (pos : Nat) : Tiles → List Located
  | [] => []
  | (tile, stretch) :: tiles => tile.located pos stretch ++ locate (pos + bytes stretch) tiles

variable {c : Char} {cs text stretch rest stop lexeme : List Char} {token : Token} {tile : Tile}
variable {tiles : Tiles} {pos : Nat}

theorem Tile.Spells.ne_nil (spells : tile.Spells stretch) : stretch ≠ [] := by
  cases spells with
  | blanks hne _ => exact hne
  | comment => exact List.cons_ne_nil _ _
  | token spells =>
      obtain ⟨hne, -⟩ := leading_prefix spells.leading_self
      exact hne

theorem Tile.Spells.starts_cons (spells : tile.Spells stretch) (starts : stretch <+: c :: text) :
    ∃ ds, stretch = c :: ds ∧ ds <+: text := by
  obtain ⟨d, ds, rfl⟩ := List.exists_cons_of_ne_nil spells.ne_nil
  obtain ⟨rfl, hds⟩ := List.cons_prefix_cons.mp starts
  exact ⟨ds, rfl, hds⟩

/-- The first character of a tile tells blanks, comments and tokens apart. -/
theorem Tile.Spells.of_cons (spells : tile.Spells (c :: cs)) :
    (isBlank c ∧ ∀ d ∈ c :: cs, isBlank d) ∨ (c = ';' ∧ ∀ d ∈ cs, d ≠ '\n') ∨
      ¬ (isBlank c ∨ c = ';') ∧ ∃ t, tile = .token t := by
  cases spells with
  | blanks _ hblank => exact .inl ⟨hblank c List.mem_cons_self, hblank⟩
  | comment hline => exact .inr (.inl ⟨rfl, hline⟩)
  | token spells => exact .inr (.inr ⟨spells.starts_apart, _, rfl⟩)

/-- Characters of a class at the start of a text belong to the run that is taken there. -/
theorem length_le_takeWhile {p : Char → Bool} (hcs : ∀ d ∈ cs, p d) (starts : cs <+: text) :
    cs.length ≤ (text.takeWhile p).length := by
  obtain ⟨rest, rfl⟩ := starts
  rw [List.takeWhile_append_of_pos hcs, List.length_append]
  exact Nat.le_add_right _ _

theorem isBlank_semicolon : isBlank ';' = false := by decide

theorem longest_blanks (hc : isBlank c) :
    Tile.Longest .blanks (c :: cs.takeWhile isBlank) (cs.dropWhile isBlank) := by
  have hrun : (c :: cs).takeWhile isBlank = c :: cs.takeWhile isBlank := by simp [hc]
  constructor
  · exact .blanks (List.cons_ne_nil _ _) (hrun ▸ fun d hd => List.mem_takeWhile_imp hd)
  · intro other stretch spells starts
    rw [List.cons_append, List.takeWhile_append_dropWhile] at starts
    obtain ⟨ds, rfl, -⟩ := spells.starts_cons starts
    rcases spells.of_cons with ⟨-, hblank⟩ | ⟨rfl, -⟩ | ⟨hstart, -⟩
    · exact hrun ▸ length_le_takeWhile hblank starts
    · rw [isBlank_semicolon] at hc
      cases hc
    · exact absurd (.inl hc) hstart

theorem longest_comment :
    Tile.Longest .comment (';' :: cs.takeWhile (· ≠ '\n')) (cs.dropWhile (· ≠ '\n')) := by
  constructor
  · exact .comment fun d hd => by simpa using List.mem_takeWhile_imp hd
  · intro other stretch spells starts
    rw [List.cons_append, List.takeWhile_append_dropWhile] at starts
    obtain ⟨ds, rfl, hds⟩ := spells.starts_cons starts
    rcases spells.of_cons with ⟨hblank, -⟩ | ⟨-, hline⟩ | ⟨hstart, -⟩
    · rw [isBlank_semicolon] at hblank
      cases hblank
    · exact Nat.succ_le_succ (length_le_takeWhile (fun d hd => by simpa using hline d hd) hds)
    · exact absurd (.inr rfl) hstart

/-- A token is the longest tile if it is the longest token. -/
theorem longest_token_iff :
    Tile.Longest (.token token) lexeme rest ↔ leading (lexeme ++ rest) = some (token, lexeme) := by
  rw [leading_eq_some_iff]
  constructor
  · intro tile
    cases tile.spells with
    | token spells =>
        refine ⟨spells, List.prefix_append _ _, ?_⟩
        exact fun other cs spells => tile.longest (.token other) cs (.token spells)
  · intro taken
    obtain ⟨spells, -, longest⟩ := taken
    have tile : Tile.Spells (.token token) lexeme := .token spells
    refine ⟨tile, ?_⟩
    intro other stretch others starts
    obtain ⟨c, cs, rfl⟩ := List.exists_cons_of_ne_nil tile.ne_nil
    obtain ⟨ds, rfl, -⟩ := others.starts_cons starts
    have hstart := spells.starts_apart
    rcases others.of_cons with ⟨hblank, -⟩ | ⟨hc, -⟩ | ⟨-, t, rfl⟩
    · exact absurd (.inl hblank) hstart
    · exact absurd (.inr hc) hstart
    · cases others with
      | token others => exact longest t _ others starts

/-- A comment goes on to the end of the line or of the text. -/
theorem Tile.Longest.stop_of_comment (longest : Tile.Longest .comment (';' :: cs) rest) :
    ∀ d ∈ rest.head?, d = '\n' := by
  intro d hd
  refine Decidable.byContradiction fun hne => ?_
  cases longest.spells with
  | comment hline =>
      obtain ⟨tail, rfl⟩ : ∃ tail, rest = d :: tail := List.head?_eq_some_iff.mp hd
      have hlonger : ∀ c ∈ cs ++ [d], c ≠ '\n' :=
        List.forall_mem_append.mpr ⟨hline, List.forall_mem_singleton.mpr hne⟩
      have hle := longest.longest .comment (';' :: (cs ++ [d])) (.comment hlonger)
        ⟨tail, by simp⟩
      rw [List.length_cons, List.length_cons, List.length_append] at hle
      exact absurd hle (by simp)

/-- Either no tile starts a text or there is a longest one. -/
theorem stuck_or_longest (text : List Char) :
    Stuck text ∨ ∃ tile stretch rest, text = stretch ++ rest ∧ Tile.Longest tile stretch rest := by
  cases text with
  | nil =>
      refine .inl fun tile stretch spells starts => ?_
      exact spells.ne_nil (List.prefix_nil.mp starts)
  | cons c cs =>
      by_cases hblank : isBlank c
      · refine .inr ⟨.blanks, c :: cs.takeWhile isBlank, cs.dropWhile isBlank, ?_, ?_⟩
        · rw [List.cons_append, List.takeWhile_append_dropWhile]
        · exact longest_blanks hblank
      · by_cases hcomment : c = ';'
        · subst hcomment
          refine .inr ⟨.comment, ';' :: cs.takeWhile (· ≠ '\n'), cs.dropWhile (· ≠ '\n'), ?_, ?_⟩
          · rw [List.cons_append, List.takeWhile_append_dropWhile]
          · exact longest_comment
        · cases hleading : leading (c :: cs) with
          | some taken =>
              obtain ⟨token, lexeme⟩ := taken
              obtain ⟨-, rest, htext⟩ := leading_prefix hleading
              rw [← htext] at hleading
              exact .inr ⟨.token token, lexeme, rest, htext.symm, longest_token_iff.mpr hleading⟩
          | none =>
              refine .inl fun tile stretch spells starts => ?_
              obtain ⟨ds, rfl, -⟩ := spells.starts_cons starts
              rcases spells.of_cons with ⟨hc, -⟩ | ⟨hc, -⟩ | ⟨-, t, rfl⟩
              · exact hblank hc
              · exact hcomment hc
              · cases spells with
                | token spells => exact leading_eq_none_iff.mp hleading t _ spells starts

/-- Cutting goes on as long as it can. Induction on the length of the text. -/
theorem exists_cuts (text : List Char) : ∃ tiles stop, Cuts text tiles stop ∧ Stuck stop := by
  induction h : text.length using Nat.strongRecOn generalizing text with
  | ind n ih =>
      rcases stuck_or_longest text with stuck | ⟨tile, stretch, rest, rfl, longest⟩
      · exact ⟨[], text, .done text, stuck⟩
      · have hpos := List.length_pos_iff.mpr longest.spells.ne_nil
        rw [List.length_append] at h
        obtain ⟨tiles, stop, cuts, stuck⟩ := ih rest.length (by omega) rest rfl
        exact ⟨_, stop, .next longest cuts, stuck⟩

theorem Cuts.text_eq (cuts : Cuts text tiles stop) : text = covered tiles ++ stop := by
  induction cuts with
  | done text => rfl
  | next longest cuts ih => rw [covered_cons, List.append_assoc, ← ih]

theorem scanFrom_blanks (hblank : ∀ c ∈ cs, isBlank c) :
    scanFrom [] pos 0 (cs ++ rest) = scanFrom [] (pos + bytes cs) 0 rest := by
  induction cs generalizing pos with
  | nil => rfl
  | cons c cs ih =>
      obtain ⟨hc, hcs⟩ := List.forall_mem_cons.mp hblank
      rw [List.cons_append, scanFrom, if_pos hc, ih hcs, Text.bytes_cons, Nat.add_assoc]

theorem scanFrom_comment (hline : ∀ c ∈ cs, c ≠ '\n') (hrest : ∀ d ∈ rest.head?, d = '\n') :
    scanFrom [] pos 0 (';' :: cs ++ rest) = scanFrom [] (pos + bytes (';' :: cs)) 0 rest := by
  have hrun : (cs ++ rest).takeWhile (· ≠ '\n') = cs :=
    takeWhile_append_of_stop (fun c hc => by simpa using hline c hc)
      (fun d hd => by simpa using hrest d hd)
  rw [List.cons_append, scanFrom, if_neg (by decide), if_pos rfl, hrun, scanFrom_skip,
    List.take_left, List.drop_left, Text.bytes_cons, Nat.add_assoc]

theorem map_nil_append (r : Except SyntaxError (List Located)) : r.map ([] ++ ·) = r := by
  cases r <;> rfl

theorem scanFrom_tile (longest : tile.Longest stretch rest) :
    scanFrom [] pos 0 (stretch ++ rest) =
      (scanFrom [] (pos + bytes stretch) 0 rest).map (tile.located pos stretch ++ ·) := by
  cases tile with
  | blanks =>
      cases longest.spells with
      | blanks _ hblank => exact (scanFrom_blanks hblank).trans (map_nil_append _).symm
  | comment =>
      cases longest.spells with
      | comment hline =>
          exact (scanFrom_comment hline longest.stop_of_comment).trans (map_nil_append _).symm
  | token t => exact scanFrom_token (longest_token_iff.mp longest)

/-- The scanner finds the tokens among the tiles and goes on where these stop. -/
theorem Cuts.scanFrom (cuts : Cuts text tiles stop) : scanFrom [] pos 0 text =
    (Token.scanFrom [] (pos + bytes (covered tiles)) 0 stop).map (locate pos tiles ++ ·) := by
  induction cuts generalizing pos with
  | done text => exact (map_nil_append _).symm
  | next longest cuts ih =>
      rw [scanFrom_tile longest, ih, covered_cons, Text.bytes_append, ← Nat.add_assoc]
      cases Token.scanFrom _ _ 0 _ with
      | ok located => simp [Except.map, locate]
      | error e => rfl

/-- The one character that no tile starts with is reported. -/
theorem Stuck.scanFrom (stuck : Stuck (c :: cs)) :
    scanFrom [] pos 0 (c :: cs) = .error (.unknownToken ⟨pos, pos + c.utf8Size⟩) := by
  have hblank : ¬ isBlank c := by
    intro hc
    exact stuck .blanks [c] (.blanks (List.cons_ne_nil _ _) (by simpa using hc)) (by simp)
  have hcomment : c ≠ ';' := by
    rintro rfl
    exact stuck .comment [';'] (.comment nofun) (by simp)
  have hleading : leading (c :: cs) = none :=
    leading_eq_none_iff.mpr fun token lexeme spells => stuck (.token token) lexeme (.token spells)
  rw [Token.scanFrom, if_neg hblank, if_neg hcomment, hleading]

variable {source : String} {located : List Located}

theorem scan_eq_ok_iff :
    scan source = .ok located ↔
      ∃ tiles, Cuts source.toList tiles [] ∧ located = locate 0 tiles := by
  constructor
  · intro ok
    obtain ⟨tiles, stop, cuts, stuck⟩ := exists_cuts source.toList
    have scanned : scan source = _ := cuts.scanFrom
    cases stop with
    | nil =>
        rw [scanned] at ok
        cases ok
        exact ⟨tiles, cuts, List.append_nil _⟩
    | cons c rest =>
        rw [scanned, stuck.scanFrom] at ok
        cases ok
  · intro cut
    obtain ⟨tiles, cuts, rfl⟩ := cut
    have scanned : scan source = _ := cuts.scanFrom
    rw [scanned]
    exact congrArg Except.ok (List.append_nil _)

theorem scan_eq_error_iff {e : SyntaxError} :
    scan source = .error e ↔ ∃ tiles c rest span, Cuts source.toList tiles (c :: rest) ∧
      Stuck (c :: rest) ∧ span.Holds source.toList [c] rest ∧ e = .unknownToken span := by
  constructor
  · intro failed
    obtain ⟨tiles, stop, cuts, stuck⟩ := exists_cuts source.toList
    have scanned : scan source = _ := cuts.scanFrom
    cases stop with
    | nil =>
        rw [scanned] at failed
        cases failed
    | cons c rest =>
        rw [scanned, stuck.scanFrom] at failed
        cases failed
        exact ⟨tiles, c, rest, _, cuts, stuck, ⟨covered tiles, cuts.text_eq, by simp⟩, rfl⟩
  · intro stops
    obtain ⟨tiles, c, rest, span, cuts, stuck, ⟨before, htext, rfl⟩, rfl⟩ := stops
    have hbefore : before = covered tiles := by
      have same := htext.symm.trans cuts.text_eq
      exact (List.append_inj_left' same rfl)
    have scanned : scan source = _ := cuts.scanFrom
    rw [scanned, stuck.scanFrom, hbefore]
    simp [Except.map]

/-- What may stand in front of `rest` outside all tokens: blanks, and comments that go
on to the end of the line or of the text. -/
inductive Trivia : List Char → List Char → Prop
  | none (rest : List Char) : Trivia [] rest
  | blank {c : Char} {gap rest : List Char} : isBlank c → Trivia gap rest → Trivia (c :: gap) rest
  | comment {line gap rest : List Char} : (∀ c ∈ line, c ≠ '\n') →
      (∀ c ∈ (gap ++ rest).head?, c = '\n') → Trivia gap rest → Trivia (';' :: (line ++ gap)) rest

/-- Where the last token stops, and `start` if there is none. -/
def stopOf (start : Nat) : List Located → Nat
  | [] => start
  | t :: ts => stopOf t.span.stop ts

/-- Where the first token starts, and `stop` if there is none. -/
def startOf (stop : Nat) : List Located → Nat
  | [] => stop
  | t :: _ => t.span.start

/-- The tokens lie in the text one after the other, each as long as it can be, and
wherever the list of tokens is divided there is nothing but trivia between the two
parts. -/
structure Tiled (text : List Char) (located : List Located) : Prop where
  nonempty : ∀ t ∈ located, t.span.start < t.span.stop
  increasing : located.Pairwise fun a b => a.span.stop ≤ b.span.start
  longest : ∀ t ∈ located, ∃ lexeme rest, t.span.Holds text lexeme rest ∧
    Tile.Longest (.token t.token) lexeme rest
  gaps : ∀ earlier later, located = earlier ++ later → ∃ gap rest,
    Span.Holds text ⟨stopOf 0 earlier, startOf (bytes text) later⟩ gap rest ∧ Trivia gap rest

theorem Trivia.blanks {gap : List Char} (hblank : ∀ c ∈ cs, isBlank c) (trivia : Trivia gap rest) :
    Trivia (cs ++ gap) rest := by
  induction cs with
  | nil => exact trivia
  | cons c cs ih =>
      obtain ⟨hc, hcs⟩ := List.forall_mem_cons.mp hblank
      exact .blank hc (ih hcs)

theorem increasing_locate (tiles : Tiles) (pos : Nat) :
    (∀ t ∈ locate pos tiles, pos ≤ t.span.start) ∧
      (locate pos tiles).Pairwise fun a b => a.span.stop ≤ b.span.start := by
  induction tiles generalizing pos with
  | nil => exact ⟨nofun, .nil⟩
  | cons next tiles ih =>
      obtain ⟨tile, stretch⟩ := next
      obtain ⟨later, increasing⟩ := ih (pos + bytes stretch)
      have later' : ∀ t ∈ locate (pos + bytes stretch) tiles, pos ≤ t.span.start :=
        fun t mem => Nat.le_of_add_right_le (later t mem)
      cases tile with
      | blanks | comment => exact ⟨later', increasing⟩
      | token token =>
          exact ⟨List.forall_mem_cons.mpr ⟨Nat.le_refl _, later'⟩, .cons later increasing⟩

/-- Induction on the tiles, with the text in front of them. -/
theorem Cuts.longest (cuts : Cuts text tiles stop) (front : List Char) :
    ∀ t ∈ locate (bytes front) tiles, ∃ lexeme rest, t.span.Holds (front ++ text) lexeme rest ∧
      Tile.Longest (.token t.token) lexeme rest := by
  induction cuts generalizing front with
  | done => exact nofun
  | @next tile stretch rest stop tiles longest _ ih =>
      have later := ih (front ++ stretch)
      rw [Text.bytes_append, List.append_assoc] at later
      cases tile with
      | blanks | comment => exact later
      | token token =>
          have here : Span.Holds (front ++ (stretch ++ rest))
              ⟨bytes front, bytes front + bytes stretch⟩ stretch rest := ⟨front, rfl, rfl⟩
          exact List.forall_mem_cons.mpr ⟨⟨stretch, rest, here, longest⟩, later⟩

/-- Up to the first token there is only trivia. -/
theorem Cuts.first_gap (cuts : Cuts text tiles []) (pos : Nat) :
    ∃ gap rest, text = gap ++ rest ∧ Trivia gap rest ∧
      startOf (pos + bytes text) (locate pos tiles) = pos + bytes gap := by
  generalize hstop : [] = stop at cuts
  induction cuts generalizing pos with
  | done text =>
      subst hstop
      exact ⟨[], [], rfl, .none [], rfl⟩
  | @next tile stretch rest stop tiles longest _ ih =>
      obtain ⟨gap, rest', rfl, trivia, hstart⟩ := ih (pos + bytes stretch) hstop
      rw [Text.bytes_append, ← Nat.add_assoc]
      cases tile with
      | token token => exact ⟨[], _, rfl, .none _, rfl⟩
      | blanks =>
          cases longest.spells with
          | blanks _ hblank =>
              refine ⟨stretch ++ gap, rest', (List.append_assoc _ _ _).symm, ?_, ?_⟩
              · exact trivia.blanks hblank
              · rw [Text.bytes_append stretch gap, ← Nat.add_assoc]
                exact hstart
      | comment =>
          cases longest.spells with
          | @comment line hline =>
              refine ⟨';' :: (line ++ gap), rest', by simp, ?_, ?_⟩
              · exact .comment hline longest.stop_of_comment trivia
              · rw [← List.cons_append, Text.bytes_append (';' :: line) gap, ← Nat.add_assoc]
                exact hstart

/-- The text is cut where a token ends. Induction on the tiles up to that token. -/
theorem Cuts.split (cuts : Cuts text tiles stop) {earlier later : List Located}
    (split : locate pos tiles = earlier ++ later) :
    ∃ before rest tiles', text = before ++ rest ∧ Cuts rest tiles' stop ∧
      locate (pos + bytes before) tiles' = later ∧ stopOf pos earlier = pos + bytes before := by
  induction cuts generalizing pos earlier with
  | done text =>
      obtain ⟨rfl, rfl⟩ := List.append_eq_nil_iff.mp split.symm
      exact ⟨[], text, [], rfl, .done text, rfl, rfl⟩
  | @next tile stretch rest stop tiles longest cuts ih =>
      cases earlier with
      | nil => exact ⟨[], _, _, rfl, .next longest cuts, split, rfl⟩
      | cons t earlier =>
          have inside : ∃ earlier', locate (pos + bytes stretch) tiles = earlier' ++ later ∧
              stopOf pos (t :: earlier) = stopOf (pos + bytes stretch) earlier' := by
            cases tile with
            | blanks | comment => exact ⟨t :: earlier, split, rfl⟩
            | token token =>
                obtain ⟨rfl, hlater⟩ := List.cons.inj split
                exact ⟨earlier, hlater, rfl⟩
          obtain ⟨earlier', split', hstop⟩ := inside
          obtain ⟨before, rest', tiles', rfl, cuts', hlater, hbefore⟩ := ih split'
          refine ⟨stretch ++ before, rest', tiles', (List.append_assoc _ _ _).symm, cuts', ?_, ?_⟩
          · rw [Text.bytes_append, ← Nat.add_assoc]
            exact hlater
          · rw [hstop, hbefore, Text.bytes_append, Nat.add_assoc]

theorem Cuts.tiled (cuts : Cuts text tiles []) : Tiled text (locate 0 tiles) := by
  refine ⟨?_, (increasing_locate tiles 0).2, cuts.longest [], ?_⟩
  · intro t mem
    obtain ⟨lexeme, rest, holds, longest⟩ := cuts.longest [] t mem
    exact holds.nonempty longest.spells.ne_nil
  · intro earlier later split
    obtain ⟨before, rest, tiles', rfl, cuts', rfl, hstop⟩ := cuts.split split
    obtain ⟨gap, rest', rfl, trivia, hstart⟩ := cuts'.first_gap (0 + bytes before)
    refine ⟨gap, rest', ⟨before, rfl, ?_⟩, trivia⟩
    rw [Text.bytes_append, hstop, Nat.zero_add]
    rw [Nat.zero_add] at hstart
    rw [hstart]

/-- The scanner succeeds exactly if the longest tiles lead to the end of the text, and
gives the tokens among them. These lie in the text one after the other, each between
two characters and as long as it can be, with nothing but blanks and comments between
them. It fails exactly if the tiles stop at a character that no tile starts with, and
reports the range of this one character. -/
theorem scan_tiles (source : String) :
    (∀ located, scan source = .ok located ↔
      ∃ tiles, Cuts source.toList tiles [] ∧ located = locate 0 tiles) ∧
    (∀ located, scan source = .ok located → Tiled source.toList located ∧
      ∀ t ∈ located, (String.Pos.Raw.mk t.span.start).IsValid source ∧
        (String.Pos.Raw.mk t.span.stop).IsValid source) ∧
    (∀ e, scan source = .error e ↔ ∃ tiles c rest span, Cuts source.toList tiles (c :: rest) ∧
      Stuck (c :: rest) ∧ span.Holds source.toList [c] rest ∧ e = .unknownToken span) := by
  refine ⟨fun located => scan_eq_ok_iff, ?_, fun e => scan_eq_error_iff⟩
  intro located ok
  obtain ⟨tiles, cuts, rfl⟩ := scan_eq_ok_iff.mp ok
  refine ⟨cuts.tiled, ?_⟩
  intro t mem
  obtain ⟨lexeme, rest, holds, -⟩ := cuts.tiled.longest t mem
  exact holds.isValid

/-- A word of which only the beginning is a token, with a comment in front, and a
character of two bytes that no token starts with. -/
theorem scan_tiles_fallback :
    scan ";é\n#truex " = .ok [⟨.boolean true, ⟨4, 9⟩⟩, ⟨.symbol "x", ⟨9, 10⟩⟩] ∧
    Tiled ";é\n#truex ".toList [⟨.boolean true, ⟨4, 9⟩⟩, ⟨.symbol "x", ⟨9, 10⟩⟩] ∧
    scan "#t é" = .error (.unknownToken ⟨3, 5⟩) ∧
    ∃ tiles c rest span, Cuts "#t é".toList tiles (c :: rest) ∧ Stuck (c :: rest) ∧
      Span.Holds "#t é".toList span [c] rest ∧
      SyntaxError.unknownToken ⟨3, 5⟩ = .unknownToken span := by
  have first : scan ";é\n#truex " =
      .ok [⟨.boolean true, ⟨4, 9⟩⟩, ⟨.symbol "x", ⟨9, 10⟩⟩] := by decide
  have second : scan "#t é" = .error (.unknownToken ⟨3, 5⟩) := by decide
  exact ⟨first, ((scan_tiles _).2.1 _ first).1, second, ((scan_tiles _).2.2 _).mp second⟩

end Token

end CoreLisp
