import CoreLisp.Outcome
import CoreLisp.Proofs.Json.Written

/-!
# What the text of an outcome denotes

The text of an outcome is a JSON object. Its members tell whether there is a value, and
then the value itself or its printed form, or else the kind of the error and its message.
Nothing is lost on the way, whatever characters occur in the message, so outcomes with
the same text have the same members.
-/
namespace CoreLisp

open Json (Lexeme decode scan read)

/-- What an outcome tells of a value: an integer or a truth value itself, and of every other
value the printed form. -/
def Value.output : Value → Json
  | .integer n => .number n
  | .boolean b => .boolean b
  | v => .string v.text

def Value.lexeme : Value → Lexeme
  | .integer n => .integer n
  | .boolean b => .boolean b
  | v => .string v.text

namespace Outcome

/-- The members of the object that an outcome is written as. -/
def members : Except Error Value → List (String × Json)
  | .ok v => [("ok", .boolean true), ("output", v.output)]
  | .error e => [("ok", .boolean false), ("type", .string e.kind), ("message", .string e.message)]

def lexemes : Except Error Value → List Lexeme
  | .ok v =>
      [.mark .openObject, .string "ok", .mark .colon, .boolean true, .mark .comma,
        .string "output", .mark .colon, v.lexeme, .mark .closeObject]
  | .error e =>
      [.mark .openObject, .string "ok", .mark .colon, .boolean false, .mark .comma,
        .string "type", .mark .colon, .string e.kind, .mark .comma,
        .string "message", .mark .colon, .string e.message, .mark .closeObject]

end Outcome

namespace Value

variable {v v' : Value}

theorem text_lexeme (v : Value) : v.lexeme.text = v.json.toList := by
  cases v with
  | boolean b => cases b <;> decide +kernel
  | integer n => rw [lexeme, json, Lexeme.integer, Lexeme.text]
  | undefined | unit | box | procedure => simp only [lexeme, json, Lexeme.text]

@[simp] theorem wellFormed_lexeme (v : Value) : v.lexeme.WellFormed := by
  cases v with
  | integer n => exact Lexeme.wellFormed_integer n
  | boolean b => exact Lexeme.wellFormed_boolean b
  | undefined | unit | box | procedure => trivial

theorem feed_lexeme (v : Value) (mayClose : Bool) (around : List Json.Open) :
    Json.Reader.feed (.value mayClose around) v.lexeme = some (.done v.output around) := by
  cases v with
  | integer n => exact Json.Reader.feed_integer n mayClose around
  | boolean b => exact Json.Reader.feed_boolean b mayClose around
  | undefined | unit | box | procedure => rfl

/-- What is written for a value is determined by what an outcome tells of it. -/
theorem lexeme_eq_of_output (same : v.output = v'.output) : v.lexeme = v'.lexeme := by
  cases v <;> cases v' <;> simp_all [output, lexeme]

end Value

namespace Outcome

variable {o o' : Except Error Value}

theorem toList_between {a b c : String} {as bs cs : List Char} (ha : a.toList = as)
    (hb : b.toList = bs) (hc : c.toList = cs) : (a ++ b ++ c).toList = as ++ bs ++ cs := by
  rw [String.toList_append, String.toList_append, ha, hb, hc]

theorem toList_json (o : Except Error Value) :
    (json o).toList = (lexemes o).flatMap Lexeme.text := by
  have last : "\x7d".toList = Lexeme.text (.mark .closeObject) := by decide +kernel
  cases o with
  | ok v =>
      have front : "\x7b\"ok\":true,\"output\":".toList = List.flatMap Lexeme.text
          [.mark .openObject, .string "ok", .mark .colon, .boolean true, .mark .comma,
            .string "output", .mark .colon] := by decide +kernel
      refine (toList_between front v.text_lexeme.symm last).trans ?_
      simp only [lexemes, List.flatMap_cons, List.flatMap_nil, List.append_assoc, List.append_nil]
  | error e =>
      have front : "\x7b\"ok\":false,\"type\":".toList = List.flatMap Lexeme.text
          [.mark .openObject, .string "ok", .mark .colon, .boolean false,
            .mark .comma, .string "type", .mark .colon] := by decide +kernel
      have middle : ",\"message\":".toList = List.flatMap Lexeme.text
          [.mark .comma, .string "message", .mark .colon] := by decide +kernel
      have kind : (Text.jsonString e.kind).toList = Lexeme.text (.string e.kind) := rfl
      have message : (Text.jsonString e.message).toList = Lexeme.text (.string e.message) := rfl
      refine (toList_between (toList_between front kind middle) message last).trans ?_
      simp only [lexemes, List.flatMap_cons, List.flatMap_nil, List.append_assoc, List.append_nil]

theorem wellFormed_lexemes (o : Except Error Value) : ∀ t ∈ lexemes o, t.WellFormed := by
  cases o <;> simp [lexemes]

theorem scan_json (o : Except Error Value) : scan (json o).toList = some (lexemes o) := by
  rw [toList_json]
  refine Json.scan_flatMap_text (wellFormed_lexemes o) ?_
  cases o <;> simp [lexemes, Lexeme.Apart, Lexeme.isWord]

theorem read_lexemes (o : Except Error Value) : read (lexemes o) = some (.object (members o)) := by
  cases o with
  | ok v =>
      -- the reader has read all but the value and the end
      change ((Json.Reader.feed (.value false [.object [("ok", .boolean true)] "output"])
        v.lexeme).bind fun r => (r.feed (.mark .closeObject)).bind some).bind (·.finish) = _
      rw [v.feed_lexeme]
      rfl
  | error e => rfl

/-- The text of an outcome is a JSON text for the object with its members. -/
theorem decode_json (o : Except Error Value) : decode (json o) = some (.object (members o)) := by
  rw [decode, scan_json, Option.bind_some, read_lexemes]

/-- An outcome is written on one line. -/
theorem newline_not_mem_json (o : Except Error Value) : '\n' ∉ (json o).toList := by
  rw [toList_json, List.mem_flatMap]
  rintro ⟨t, ht, mem⟩
  exact (wellFormed_lexemes o t ht).newline_not_mem mem

theorem lexemes_eq_of_members (same : members o = members o') : lexemes o = lexemes o' := by
  cases o with
  | ok v =>
      cases o' with
      | ok v' =>
          have output : v.output = v'.output := by simpa [members] using same
          rw [lexemes, lexemes, Value.lexeme_eq_of_output output]
      | error e' => simp [members] at same
  | error e =>
      cases o' with
      | ok v' => simp [members] at same
      | error e' =>
          have texts : e.kind = e'.kind ∧ e.message = e'.message := by simpa [members] using same
          rw [lexemes, lexemes, texts.1, texts.2]

theorem json_eq_iff : json o = json o' ↔ members o = members o' := by
  constructor
  · intro same
    have read := (decode_json o).symm.trans ((congrArg decode same).trans (decode_json o'))
    simpa using read
  · intro same
    refine String.toList_inj.mp ?_
    rw [toList_json, toList_json, lexemes_eq_of_members same]

/-- The text of an outcome is a JSON text, and it denotes an object. For a value this has
the members `ok`, which is true, and `output`, which is the integer, the truth value or
the printed form as a string. For an error it has the members `ok`, which is false, `type`,
the kind of the error, and `message`, its message. So two outcomes have the same text just
when they agree in all of these. Values and errors are arbitrary here: the texts in an
error, and the delimiters of a mismatch, need not come from a program. -/
theorem json_denotes_outcome :
    (∀ v, decode (json (.ok v)) = some (.object [("ok", .boolean true), ("output", v.output)])) ∧
    (∀ e, decode (json (.error e)) = some (.object
      [("ok", .boolean false), ("type", .string e.kind), ("message", .string e.message)])) ∧
    ∀ o o', json o = json o' ↔ members o = members o' :=
  ⟨fun v => decode_json (.ok v), fun e => decode_json (.error e), fun _ _ => json_eq_iff⟩

/-- A construct and a reason that the reader never gives. -/
example : json (.error (.parsing (.malformed (.other "\"é") (.reported "a\\\n\x01")))) =
    "\x7b\"ok\":false,\"type\":\"SyntaxError\"," ++
      "\"message\":\"syntax error: malformed \\\"é: a\\\\\\n\\u0001\"\x7d" := by
  decide +kernel

end Outcome

end CoreLisp
