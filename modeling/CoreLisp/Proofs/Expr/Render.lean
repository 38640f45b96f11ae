import CoreLisp.Proofs.Expr.WellFormed
import CoreLisp.Proofs.Form.Written

/-!
# Writing expressions

Every expression that the builder can make has one canonical text. The bindings
of a construct stand in square brackets, and a sequence that is a body, or the
whole program, is written as the row of its elements. From the canonical text
the builder makes the same expression again, and an expression that was built
from some text can be spelled and is written with no deeper brackets than that
text has.
-/
namespace CoreLisp

open SyntaxError (bind_eq_ok_iff)
open Form (Written nestingAll nestingAll_nil nestingAll_cons nesting_list nesting_symbol maxNesting)

def Datum.form : Datum → Form
  | integer value => .integer value
  | boolean value => .boolean value
  | undefined => .undefined

namespace Expr

def bracketed (k : Keyword) (parts : List Written) : Written :=
  .list .paren (.plain (.symbol k.text) :: parts)

def bindings (names : List Name) (inits : List Written) : Written :=
  .list .paren (List.zipWith (fun x init => .list .bracket [.plain (.symbol x), init]) names inits)

def parameters (params : List Name) : Written := .plain (.list (params.map .symbol))

mutual

/-- How an expression is written where it is not a body. -/
def written : Expr → Written
  | letIn names inits body =>
      bracketed .letIn (bindings names (writtenAll inits) :: writtenBody body (written body))
  | letRec names inits body =>
      bracketed .letRec (bindings names (writtenAll inits) :: writtenBody body (written body))
  | seq es => bracketed .begin (writtenAll es)
  | ref x => .plain (.symbol x)
  | datum value => bracketed .datum [.plain value.form]
  | cond test conseq alt => bracketed .cond [written test, written conseq, written alt]
  | lambda params body =>
      bracketed .lambda (parameters params :: writtenBody body (written body))
  | app rator rands => bracketed .app (written rator :: writtenAll rands)
  | primApp x rands => bracketed .primApp (.plain (.symbol x) :: writtenAll rands)
  | assign x rhs => bracketed .assign [.plain (.symbol x), written rhs]

def writtenAll : List Expr → List Written
  | [] => []
  | e :: es => written e :: writtenAll es

/-- A body is written without brackets if it is a sequence, and otherwise as it is
written elsewhere, which is `whole`. -/
def writtenBody : Expr → Written → List Written
  | seq es, _ => writtenAll es
  | _, whole => [whole]

end

/-- The expressions in a row that a body is made up of. -/
def elements : Expr → List Expr
  | seq es => es
  | e => [e]

/-- The canonical text of a program. -/
def render (e : Expr) : String := Written.textAll (writtenBody e e.written)

/-- The form that an expression is written as. -/
def form (e : Expr) : Form := e.written.form

/-- How deep the brackets of the canonical text are nested. -/
def depth (e : Expr) : Nat := nestingAll (e.elements.map form)

/-- The names and integers of one node can be spelled. -/
def Spelled : Expr → Prop
  | letIn names _ _ | letRec names _ _ => ∀ x ∈ names, Token.IsSymbol x.toList
  | lambda params _ => ∀ x ∈ params, Token.IsSymbol x.toList
  | ref x | primApp x _ | assign x _ => Token.IsSymbol x.toList
  | datum value => value.form.Spelled
  | seq _ | cond .. | app .. => True

variable {e body : Expr} {es inits : List Expr} {names : List Name} {k : Keyword}
variable {construct : Construct}

@[simp] theorem writtenAll_eq_map (es : List Expr) : writtenAll es = es.map written := by
  induction es with
  | nil => rfl
  | cons e es ih => rw [writtenAll, ih, List.map_cons]

theorem writtenBody_eq_map (e : Expr) : writtenBody e e.written = e.elements.map written := by
  cases e with
  | seq es => exact writtenAll_eq_map es
  | letIn | letRec | ref | datum | cond | lambda | app | primApp | assign => rfl

theorem forms_body (e : Expr) :
    (writtenBody e e.written).map Written.form = e.elements.map form := by
  rw [writtenBody_eq_map, List.map_map]
  rfl

/-- The bindings of a construct when the brackets are forgotten. -/
def bindingForms (names : List Name) (inits : List Form) : List Form :=
  List.zipWith (fun x init => .list [.symbol x, init]) names inits

theorem form_bracketed (k : Keyword) (parts : List Written) :
    (bracketed k parts).form = .list (.symbol k.text :: parts.map Written.form) := by
  simp [bracketed]

theorem form_bindings (names : List Name) (inits : List Expr) :
    (bindings names (inits.map written)).form =
      .list (bindingForms names (inits.map form)) := by
  rw [bindings, Written.form_list, List.map_zipWith, List.zipWith_map_right, bindingForms,
    List.zipWith_map_right]
  simp [form]

theorem form_letIn : (letIn names inits body).form =
    .list (.symbol Keyword.letIn.text :: .list (bindingForms names (inits.map form)) ::
      body.elements.map form) := by
  rw [form, written, form_bracketed, writtenAll_eq_map, List.map_cons, form_bindings, forms_body]

theorem form_letRec : (letRec names inits body).form =
    .list (.symbol Keyword.letRec.text :: .list (bindingForms names (inits.map form)) ::
      body.elements.map form) := by
  rw [form, written, form_bracketed, writtenAll_eq_map, List.map_cons, form_bindings, forms_body]

theorem form_seq : (seq es).form = .list (.symbol Keyword.begin.text :: es.map form) := by
  rw [form, written, form_bracketed, writtenAll_eq_map, List.map_map]
  rfl

theorem form_ref {x : Name} : (ref x).form = .symbol x := by
  rw [form, written, Written.form_plain]

theorem form_datum {value : Datum} : (datum value).form =
    .list [.symbol Keyword.datum.text, value.form] := by
  rw [form, written, form_bracketed]
  simp

theorem form_cond {test conseq alt : Expr} : (cond test conseq alt).form =
    .list [.symbol Keyword.cond.text, test.form, conseq.form, alt.form] := by
  rw [form, written, form_bracketed]
  rfl

theorem form_lambda {params : List Name} : (lambda params body).form =
    .list (.symbol Keyword.lambda.text :: .list (params.map .symbol) ::
      body.elements.map form) := by
  rw [form, written, form_bracketed, List.map_cons, forms_body, parameters, Written.form_plain]

theorem form_app {rator : Expr} : (app rator es).form =
    .list (.symbol Keyword.app.text :: rator.form :: es.map form) := by
  rw [form, written, form_bracketed, writtenAll_eq_map, List.map_cons, List.map_map]
  rfl

theorem form_primApp {x : Name} : (primApp x es).form =
    .list (.symbol Keyword.primApp.text :: .symbol x :: es.map form) := by
  rw [form, written, form_bracketed, writtenAll_eq_map, List.map_cons, List.map_map,
    Written.form_plain]
  rfl

theorem form_assign {x : Name} {rhs : Expr} : (assign x rhs).form =
    .list [.symbol Keyword.assign.text, .symbol x, rhs.form] := by
  rw [form, written, form_bracketed]
  simp [form]

/-- The expression is built from its form, and its elements from theirs. -/
structure Built (e : Expr) : Prop where
  whole : ofForm e.form = .ok e
  row : ofForms (e.elements.map form) = .ok e.elements

theorem Built.single (whole : ofForm e.form = .ok e) (helements : e.elements = [e]) :
    e.Built := by
  refine ⟨whole, ?_⟩
  rw [helements, List.map_singleton, ofForms, whole]
  rfl

theorem ofForms_map (built : ∀ e ∈ es, e.Built) : ofForms (es.map form) = .ok es := by
  induction es with
  | nil => rfl
  | cons e es ih =>
      obtain ⟨he, hes⟩ := List.forall_mem_cons.mp built
      rw [List.map_cons, ofForms, he.whole, ih hes]
      rfl

/-- Names and initializers that are as many are read back from their bindings. -/
theorem exists_bound (hlength : names.length = inits.length) (built : ∀ e ∈ inits, e.Built) :
    ∃ bound, bindingsOf k (bindingForms names (inits.map form)) = .ok bound ∧
      bound.map (·.1) = names ∧ bound.map (·.2) = inits := by
  induction names generalizing inits with
  | nil =>
      obtain rfl := List.eq_nil_of_length_eq_zero hlength.symm
      exact ⟨[], rfl, rfl, rfl⟩
  | cons x names ih =>
      obtain ⟨init, inits, rfl⟩ := List.exists_cons_of_length_eq_add_one hlength.symm
      obtain ⟨hinit, hinits⟩ := List.forall_mem_cons.mp built
      obtain ⟨bound, hbound, rfl, rfl⟩ := ih (by simpa using hlength) hinits
      refine ⟨(x, init) :: bound, ?_, rfl, rfl⟩
      rw [bindingForms] at hbound
      rw [List.map_cons, bindingForms, List.zipWith_cons_cons, bindingsOf, hinit.whole, hbound]
      rfl

theorem mapM_identifier (params : List Name) :
    (params.map Form.symbol).mapM (identifier k) = .ok params := by
  induction params with
  | nil => rfl
  | cons x params ih =>
      rw [List.map_cons, List.mapM_cons, ih]
      rfl

theorem literal_form (value : Datum) : literal [value.form] = .ok (.datum value) := by
  cases value <;> rfl

theorem block_elements (regular : Regular e) : block construct e.elements = .ok e := by
  cases e with
  | seq es =>
      match es, regular with
      | _ :: _ :: _, _ => rfl
  | letIn | letRec | ref | datum | cond | lambda | app | primApp | assign => rfl

/-- What is said of the elements is needed where the expression is a body. -/
theorem WellFormed.built (wf : e.WellFormed) : e.Built := by
  induction wf with
  | @node e here inside built =>
      cases e with
      | seq es =>
          have hes := ofForms_map built
          have hblock : block (.keyword .begin) es = .ok (.seq es) := block_elements here
          refine ⟨?_, hes⟩
          rw [form_seq]
          exact ofForm_eq_ok_iff.mpr (.begin (Keyword.ofText?_text _) hes hblock)
      | letIn names inits body =>
          obtain ⟨hlength, hdistinct⟩ := here
          obtain ⟨hinits, hbody⟩ := List.forall_mem_append.mp built
          have hbody := List.forall_mem_singleton.mp hbody
          have hregular := (inside body (by simp [parts])).self
          obtain ⟨bound, hbound, rfl, rfl⟩ := exists_bound (k := .letIn) hlength hinits
          refine .single ?_ rfl
          rw [form_letIn]
          exact ofForm_eq_ok_iff.mpr (.letIn (Keyword.ofText?_text _) hbound hdistinct hbody.row
            (block_elements hregular))
      | letRec names inits body =>
          obtain ⟨hlength, hdistinct, hne⟩ := here
          obtain ⟨hinits, hbody⟩ := List.forall_mem_append.mp built
          have hbody := List.forall_mem_singleton.mp hbody
          have hregular := (inside body (by simp [parts])).self
          obtain ⟨bound, hbound, rfl, rfl⟩ := exists_bound (k := .letRec) hlength hinits
          refine .single ?_ rfl
          rw [form_letRec]
          exact ofForm_eq_ok_iff.mpr (.letRec (Keyword.ofText?_text _) hbound hdistinct hbody.row
            (block_elements hregular) (by simpa using hne))
      | lambda params body =>
          have hbody := List.forall_mem_singleton.mp built
          have hregular := (inside body (by simp [parts])).self
          refine .single ?_ rfl
          rw [form_lambda]
          exact ofForm_eq_ok_iff.mpr (.lambda (Keyword.ofText?_text _) (mapM_identifier params)
            here hbody.row (block_elements hregular))
      | ref x =>
          refine .single ?_ rfl
          rw [form_ref]
          exact ofForm_eq_ok_iff.mpr .ref
      | datum value =>
          refine .single ?_ rfl
          rw [form_datum]
          exact ofForm_eq_ok_iff.mpr (.datum (Keyword.ofText?_text _) (literal_form value))
      | cond test conseq alt =>
          have htest := (built test (by simp [parts])).whole
          have hconseq := (built conseq (by simp [parts])).whole
          have halt := (built alt (by simp [parts])).whole
          refine .single ?_ rfl
          rw [form_cond]
          exact ofForm_eq_ok_iff.mpr (.cond (Keyword.ofText?_text _) htest hconseq halt)
      | app rator rands =>
          obtain ⟨hrator, hrands⟩ := List.forall_mem_cons.mp built
          refine .single ?_ rfl
          rw [form_app]
          exact ofForm_eq_ok_iff.mpr
            (.app (Keyword.ofText?_text _) hrator.whole (ofForms_map hrands))
      | primApp x rands =>
          refine .single ?_ rfl
          rw [form_primApp]
          exact ofForm_eq_ok_iff.mpr (.primApp (Keyword.ofText?_text _) (ofForms_map built))
      | assign x rhs =>
          have hrhs := (List.forall_mem_singleton.mp built).whole
          refine .single ?_ rfl
          rw [form_assign]
          exact ofForm_eq_ok_iff.mpr (.assign (Keyword.ofText?_text _) hrhs)

theorem isSymbol_keyword (k : Keyword) : Token.IsSymbol k.text.toList := by
  cases k <;> exact ⟨_, _, by decide, List.all_eq_true.mp (by decide), .inr rfl⟩

theorem spelled_bracketed {parts : List Written} (spelled : ∀ w ∈ parts, w.Spelled) :
    (bracketed k parts).Spelled := by
  have hkeyword : (Written.plain (.symbol k.text)).Spelled := .plain (.symbol (isSymbol_keyword k))
  exact .list (List.forall_mem_cons.mpr ⟨hkeyword, spelled⟩)

theorem spelled_symbol {x : Name} (hx : Token.IsSymbol x.toList) :
    (Written.plain (.symbol x)).Spelled := .plain (.symbol hx)

theorem spelled_bindings (hnames : ∀ x ∈ names, Token.IsSymbol x.toList)
    (spelled : ∀ e ∈ inits, e.written.Spelled) :
    (bindings names (inits.map written)).Spelled := by
  refine .list ?_
  induction names generalizing inits with
  | nil => exact nofun
  | cons x names ih =>
      obtain ⟨hx, hnames⟩ := List.forall_mem_cons.mp hnames
      cases inits with
      | nil => exact nofun
      | cons init inits =>
          obtain ⟨hinit, hinits⟩ := List.forall_mem_cons.mp spelled
          have hfirst : (Written.list .bracket [.plain (.symbol x), init.written]).Spelled := by
            refine .list (List.forall_mem_cons.mpr ⟨spelled_symbol hx, ?_⟩)
            exact List.forall_mem_singleton.mpr hinit
          exact List.forall_mem_cons.mpr ⟨hfirst, ih hnames hinits⟩

theorem spelled_parameters (hnames : ∀ x ∈ names, Token.IsSymbol x.toList) :
    (parameters names).Spelled :=
  .plain (.list (List.forall_mem_map.mpr fun x mem => .symbol (hnames x mem)))

/-- If an expression can be spelled, so can the row of its elements. -/
theorem spelled_body (spelled : e.written.Spelled) :
    ∀ w ∈ writtenBody e e.written, w.Spelled := by
  cases e with
  | seq es =>
      cases spelled with
      | list spelled => exact (List.forall_mem_cons.mp spelled).2
  | letIn | letRec | ref | datum | cond | lambda | app | primApp | assign =>
      exact List.forall_mem_singleton.mpr spelled

theorem Everywhere.written (spelled : e.Everywhere Spelled) : e.written.Spelled := by
  induction spelled with
  | @node e here _ spelled =>
      cases e with
      | letIn names inits body | letRec names inits body =>
          obtain ⟨hinits, hbody⟩ := List.forall_mem_append.mp spelled
          have hbody := List.forall_mem_singleton.mp hbody
          have hbody := spelled_body hbody
          have hbindings := spelled_bindings here hinits
          rw [Expr.written, writtenAll_eq_map]
          exact spelled_bracketed (List.forall_mem_cons.mpr ⟨hbindings, hbody⟩)
      | lambda params body =>
          have hbody := List.forall_mem_singleton.mp spelled
          have hbody := spelled_body hbody
          rw [Expr.written]
          exact spelled_bracketed (List.forall_mem_cons.mpr ⟨spelled_parameters here, hbody⟩)
      | seq es =>
          rw [Expr.written, writtenAll_eq_map]
          exact spelled_bracketed (List.forall_mem_map.mpr spelled)
      | ref x =>
          rw [Expr.written]
          exact spelled_symbol here
      | datum value =>
          rw [Expr.written]
          exact spelled_bracketed (List.forall_mem_singleton.mpr (.plain here))
      | cond test conseq alt =>
          rw [Expr.written]
          refine spelled_bracketed ?_
          simpa [parts] using spelled
      | app rator rands =>
          obtain ⟨hrator, hrands⟩ := List.forall_mem_cons.mp spelled
          rw [Expr.written, writtenAll_eq_map]
          have hrands := List.forall_mem_map.mpr hrands
          exact spelled_bracketed (List.forall_mem_cons.mpr ⟨hrator, hrands⟩)
      | primApp x rands =>
          have hrands := List.forall_mem_map.mpr spelled
          rw [Expr.written, writtenAll_eq_map]
          exact spelled_bracketed (List.forall_mem_cons.mpr ⟨spelled_symbol here, hrands⟩)
      | assign x rhs =>
          have hrhs := List.forall_mem_singleton.mp spelled
          rw [Expr.written]
          refine spelled_bracketed (List.forall_mem_cons.mpr ⟨spelled_symbol here, ?_⟩)
          exact List.forall_mem_singleton.mpr hrhs

theorem readAll_render (spelled : e.Everywhere Spelled) (room : e.depth ≤ maxNesting) :
    Form.readAll e.render = .ok (e.elements.map form) := by
  rw [depth, ← forms_body] at room
  rw [render, ← forms_body]
  exact Written.readAll_textAll (spelled_body spelled.written) room

theorem ofProgram_elements (wf : e.WellFormed) : ofProgram (e.elements.map form) = .ok e := by
  have hblock : block .program e.elements = .ok e := block_elements wf.self
  have hrow := wf.built.row
  cases helements : e.elements with
  | nil =>
      rw [helements] at hblock
      cases hblock
  | cons first rest =>
      rw [helements] at hblock hrow
      exact bind_eq_ok_iff.mpr ⟨_, hrow, hblock⟩

/-- The row of the elements has no deeper brackets than the expression. -/
theorem depth_le_nesting (e : Expr) : e.depth ≤ e.form.nesting := by
  cases e with
  | seq es =>
      rw [form_seq, depth, elements]
      simp
  | letIn | letRec | ref | datum | cond | lambda | app | primApp | assign =>
      simp [depth, elements, nestingAll]

theorem literal_eq_ok_iff {forms : List Form} :
    literal forms = .ok e ↔ ∃ value : Datum, forms = [value.form] ∧ e = .datum value := by
  constructor
  · intro ok
    unfold literal at ok
    split at ok <;> cases ok
    · exact ⟨.integer _, rfl, rfl⟩
    · exact ⟨.boolean _, rfl, rfl⟩
    · exact ⟨.undefined, rfl, rfl⟩
  · intro literals
    obtain ⟨value, rfl, rfl⟩ := literals
    exact literal_form value

/-- The expression can be spelled, and its form is nested no deeper than the one
given. -/
structure Within (e : Expr) (f : Form) : Prop where
  spelled : e.Everywhere Spelled
  nesting : e.form.nesting ≤ f.nesting

/-- The same of a row of expressions. -/
structure RowWithin (es : List Expr) (fs : List Form) : Prop where
  spelled : ∀ e ∈ es, e.Everywhere Spelled
  nesting : nestingAll (es.map form) ≤ nestingAll fs

theorem everywhere_spelled_of_block (ok : block construct es = .ok e)
    (spelled : ∀ x ∈ es, x.Everywhere Spelled) : e.Everywhere Spelled := by
  match es with
  | [] => cases ok
  | [single] =>
      cases ok
      exact spelled e List.mem_cons_self
  | first :: second :: rest =>
      cases ok
      exact .node trivial spelled

theorem depth_le_of_block (ok : block construct es = .ok e) :
    e.depth ≤ nestingAll (es.map form) := by
  match es with
  | [] => cases ok
  | [single] =>
      cases ok
      exact (depth_le_nesting e).trans (by simp)
  | first :: second :: rest =>
      cases ok
      exact Nat.le_refl _

theorem nesting_le_of_block (ok : block construct es = .ok e) :
    e.form.nesting ≤ nestingAll (es.map form) + 1 := by
  match es with
  | [] => cases ok
  | [single] =>
      cases ok
      rw [List.map_singleton, nestingAll_cons]
      omega
  | first :: second :: rest =>
      cases ok
      rw [form_seq]
      simp

/-- What the initializers of a construct and the names bound to them owe to its
bindings. -/
structure BoundWithin (bound : List (Name × Expr)) (fs : List Form) : Prop where
  names : ∀ x ∈ bound.map (·.1), Token.IsSymbol x.toList
  inits : ∀ e ∈ bound.map (·.2), e.Everywhere Spelled
  nesting : nestingAll (bindingForms (bound.map (·.1)) ((bound.map (·.2)).map form)) ≤
    nestingAll fs

theorem isSymbol_of_mapM {forms : List Form} (ok : forms.mapM (identifier k) = .ok names)
    (spelled : ∀ f ∈ forms, f.Spelled) : ∀ x ∈ names, Token.IsSymbol x.toList := by
  induction forms generalizing names with
  | nil =>
      cases ok
      exact nofun
  | cons f forms ih =>
      obtain ⟨hf, hforms⟩ := List.forall_mem_cons.mp spelled
      rw [List.mapM_cons] at ok
      obtain ⟨x, hx, ok⟩ := bind_eq_ok_iff.mp ok
      obtain ⟨xs, hxs, ok⟩ := bind_eq_ok_iff.mp ok
      cases ok
      obtain rfl := identifier_eq_ok_iff.mp hx
      exact List.forall_mem_cons.mpr ⟨hf.isSymbol, ih hxs hforms⟩

theorem nestingAll_parameters (params : List Name) :
    nestingAll (params.map Form.symbol) = 0 := by
  induction params with
  | nil => rfl
  | cons x params ih => rw [List.map_cons, nestingAll_cons, ih, nesting_symbol, Nat.max_zero]

mutual

/-- Induction on the form, along what the builder accepts. -/
theorem within_of_ofForm {f : Form} {e : Expr} (ok : ofForm f = .ok e) (spelled : f.Spelled) :
    e.Within f := by
  cases ofForm_eq_ok_iff.mp ok with
  | @ref x => exact ⟨.node spelled.isSymbol nofun, by rw [form_ref]⟩
  | datum _ ok =>
      obtain ⟨value, rfl, rfl⟩ := literal_eq_ok_iff.mp ok
      obtain ⟨-, hvalue⟩ := List.forall_mem_cons.mp spelled.items
      have hvalue := List.forall_mem_singleton.mp hvalue
      refine ⟨.node hvalue nofun, ?_⟩
      simp [form_datum]
  | letIn _ hbound _ hes hbody | letRec _ hbound _ hes hbody _ =>
      obtain ⟨-, hparts⟩ := List.forall_mem_cons.mp spelled.items
      obtain ⟨hbindings, hforms⟩ := List.forall_mem_cons.mp hparts
      have bindings := within_of_bindingsOf hbound hbindings.items
      have row := within_of_ofForms hes hforms
      have hbelow := everywhere_spelled_of_block hbody row.spelled
      have hdepth := depth_le_of_block hbody
      have hnesting := bindings.nesting
      have hrow := row.nesting
      refine ⟨.node bindings.names ?_, ?_⟩
      · exact List.forall_mem_append.mpr ⟨bindings.inits, List.forall_mem_singleton.mpr hbelow⟩
      · rw [depth] at hdepth
        simp only [form_letIn, form_letRec, nesting_list, nestingAll_cons, nesting_symbol]
        omega
  | lambda _ hparams _ hes hbody =>
      obtain ⟨-, hparts⟩ := List.forall_mem_cons.mp spelled.items
      obtain ⟨hnames, hforms⟩ := List.forall_mem_cons.mp hparts
      have hnames := isSymbol_of_mapM hparams hnames.items
      have row := within_of_ofForms hes hforms
      have hbelow := everywhere_spelled_of_block hbody row.spelled
      have hdepth := depth_le_of_block hbody
      have hrow := row.nesting
      refine ⟨.node hnames (List.forall_mem_singleton.mpr hbelow), ?_⟩
      rw [depth] at hdepth
      simp only [form_lambda, nesting_list, nestingAll_cons, nesting_symbol,
        nestingAll_parameters]
      omega
  | cond _ htest hconseq halt =>
      have hparts := (List.forall_mem_cons.mp spelled.items).2
      simp only [List.mem_cons, List.not_mem_nil, or_false, forall_eq_or_imp, forall_eq] at hparts
      have test := within_of_ofForm htest hparts.1
      have conseq := within_of_ofForm hconseq hparts.2.1
      have alt := within_of_ofForm halt hparts.2.2
      have htest := test.nesting
      have hconseq := conseq.nesting
      have halt := alt.nesting
      refine ⟨.node trivial ?_, ?_⟩
      · simp [parts, test.spelled, conseq.spelled, alt.spelled]
      · simp only [form_cond, nesting_list, nestingAll_cons, nesting_symbol]
        omega
  | assign _ hrhs =>
      have hparts := (List.forall_mem_cons.mp spelled.items).2
      simp only [List.mem_cons, List.not_mem_nil, or_false, forall_eq_or_imp, forall_eq] at hparts
      have rhs := within_of_ofForm hrhs hparts.2
      have hrhs := rhs.nesting
      refine ⟨.node hparts.1.isSymbol ?_, ?_⟩
      · exact List.forall_mem_singleton.mpr rhs.spelled
      · simp only [form_assign, nesting_list, nestingAll_cons, nesting_symbol]
        omega
  | begin _ hes ok =>
      obtain ⟨-, hforms⟩ := List.forall_mem_cons.mp spelled.items
      have row := within_of_ofForms hes hforms
      have hnesting := nesting_le_of_block ok
      have hrow := row.nesting
      refine ⟨everywhere_spelled_of_block ok row.spelled, ?_⟩
      simp only [nesting_list, nestingAll_cons, nesting_symbol]
      omega
  | app _ hrator hrands =>
      obtain ⟨-, hparts⟩ := List.forall_mem_cons.mp spelled.items
      obtain ⟨hfirst, hforms⟩ := List.forall_mem_cons.mp hparts
      have rator := within_of_ofForm hrator hfirst
      have row := within_of_ofForms hrands hforms
      have hrator := rator.nesting
      have hrow := row.nesting
      refine ⟨.node trivial (List.forall_mem_cons.mpr ⟨rator.spelled, row.spelled⟩), ?_⟩
      simp only [form_app, nesting_list, nestingAll_cons, nesting_symbol]
      omega
  | primApp _ hrands =>
      obtain ⟨-, hparts⟩ := List.forall_mem_cons.mp spelled.items
      obtain ⟨hname, hforms⟩ := List.forall_mem_cons.mp hparts
      have row := within_of_ofForms hrands hforms
      have hrow := row.nesting
      refine ⟨.node hname.isSymbol row.spelled, ?_⟩
      simp only [form_primApp, nesting_list, nestingAll_cons, nesting_symbol]
      omega

theorem within_of_ofForms {fs : List Form} {es : List Expr} (ok : ofForms fs = .ok es)
    (spelled : ∀ f ∈ fs, f.Spelled) : RowWithin es fs := by
  match fs with
  | [] =>
      cases ok
      exact ⟨nofun, Nat.le_refl _⟩
  | f :: fs =>
      unfold ofForms at ok
      obtain ⟨e, he, ok⟩ := bind_eq_ok_iff.mp ok
      obtain ⟨es, hes, ok⟩ := bind_eq_ok_iff.mp ok
      cases ok
      obtain ⟨hf, hfs⟩ := List.forall_mem_cons.mp spelled
      have hfirst := within_of_ofForm he hf
      have hrest := within_of_ofForms hes hfs
      refine ⟨List.forall_mem_cons.mpr ⟨hfirst.spelled, hrest.spelled⟩, ?_⟩
      have hnesting := hfirst.nesting
      have hnestings := hrest.nesting
      rw [List.map_cons, nestingAll_cons, nestingAll_cons]
      omega

theorem within_of_bindingsOf {k : Keyword} {fs : List Form} {bound : List (Name × Expr)}
    (ok : bindingsOf k fs = .ok bound) (spelled : ∀ f ∈ fs, f.Spelled) :
    BoundWithin bound fs := by
  match fs with
  | [] =>
      cases ok
      exact ⟨nofun, nofun, Nat.le_refl _⟩
  | .list [name, init] :: rest =>
      unfold bindingsOf at ok
      obtain ⟨x, hx, ok⟩ := bind_eq_ok_iff.mp ok
      obtain ⟨e, he, ok⟩ := bind_eq_ok_iff.mp ok
      obtain ⟨bs, hbs, ok⟩ := bind_eq_ok_iff.mp ok
      cases ok
      obtain rfl := identifier_eq_ok_iff.mp hx
      obtain ⟨hfirst, hrest⟩ := List.forall_mem_cons.mp spelled
      obtain ⟨hname, hinit⟩ := List.forall_mem_cons.mp hfirst.items
      have first := within_of_ofForm he (List.forall_mem_singleton.mp hinit)
      have others := within_of_bindingsOf hbs hrest
      have hnesting := first.nesting
      have hnestings := others.nesting
      refine ⟨?_, ?_, ?_⟩
      · exact List.forall_mem_cons.mpr ⟨hname.isSymbol, others.names⟩
      · exact List.forall_mem_cons.mpr ⟨first.spelled, others.inits⟩
      · rw [bindingForms] at hnestings
        simp only [bindingForms, List.map_cons, List.zipWith_cons_cons, nestingAll_cons,
          nesting_list, nesting_symbol, nestingAll_nil]
        omega
  | .symbol _ :: _ | .integer _ :: _ | .boolean _ :: _ | .undefined :: _ => cases ok
  | .list [] :: _ | .list [_] :: _ | .list (_ :: _ :: _ :: _) :: _ => cases ok

end

theorem within_of_parse {source : String} (ok : parse source = .ok e) :
    e.Everywhere Spelled ∧ e.depth ≤ maxNesting := by
  obtain ⟨forms, hread, ok⟩ := bind_eq_ok_iff.mp ok
  have readable := Form.readable_of_readAll hread
  match forms with
  | [] => cases ok
  | form :: forms =>
      obtain ⟨es, hes, ok⟩ := bind_eq_ok_iff.mp ok
      have row := within_of_ofForms hes readable.spelled
      refine ⟨everywhere_spelled_of_block ok row.spelled, ?_⟩
      calc e.depth ≤ nestingAll (es.map Expr.form) := depth_le_of_block ok
        _ ≤ nestingAll (form :: forms) := row.nesting
        _ ≤ maxNesting := readable.nesting

/-- The expressions that source text denotes are those that are well formed, can be
spelled and whose canonical text is not nested too deep: such an expression is parsed
from its canonical text, and nothing else is parsed from any text. -/
theorem parse_render_inverse :
    (∀ e : Expr, e.WellFormed → e.Everywhere Spelled → e.depth ≤ maxNesting →
      parse e.render = .ok e) ∧
    ∀ source e, parse source = .ok e →
      e.WellFormed ∧ e.Everywhere Spelled ∧ e.depth ≤ maxNesting := by
  constructor
  · intro e wf spelled room
    exact bind_eq_ok_iff.mpr ⟨_, readAll_render spelled room, ofProgram_elements wf⟩
  · intro source e ok
    exact ⟨wellFormed_of_parse ok, within_of_parse ok⟩

/-- A variable with the name of a keyword, a sequence as a body with another one in
it, and a sequence of one element, which is not kept. -/
theorem parse_render_inverse_splicing :
    parse "(#%let ([#%if (#%datum 01)]) (#%begin #%if (#%begin x)) y)" =
      .ok (.letIn ["#%if"] [.datum (.integer 1)]
        (.seq [.seq [.ref "#%if", .ref "x"], .ref "y"])) ∧
    parse "(#%let ([#%if (#%datum 1)]) (#%begin #%if x) y)" =
      .ok (.letIn ["#%if"] [.datum (.integer 1)]
        (.seq [.seq [.ref "#%if", .ref "x"], .ref "y"])) := by
  have parsed : parse "(#%let ([#%if (#%datum 01)]) (#%begin #%if (#%begin x)) y)" =
      .ok (.letIn ["#%if"] [.datum (.integer 1)]
        (.seq [.seq [.ref "#%if", .ref "x"], .ref "y"])) := rfl
  obtain ⟨wf, spelled, room⟩ := parse_render_inverse.2 _ _ parsed
  have again := parse_render_inverse.1 _ wf spelled room
  exact ⟨parsed, again⟩

end Expr

end CoreLisp
