import PegCompiler.Grammar.Build
import PegCompiler.Grammar.Json
import PegCompiler.Proofs.Trees

/-!
# Grammars are read back

What is written of a grammar is read as the same grammar, without its constants. Every key stands
once in what is written, so a reader finds under each of its keys what was written there, whatever
else stands in the object: the fields of a node, of its operator or leaf and of its tag are read one
by one.
-/

namespace PegCompiler

/-! ## Records -/

namespace Json

/-- The fields under a key that stands at most once. -/
theorem filter_eq_lookup {α : Type} {fields : List (String × α)} (h : (fields.map (·.1)).Nodup)
    (key : String) :
    fields.filter (·.1 = key) = ((fields.lookup key).map fun a => (key, a)).toList := by
  induction fields with
  | nil => rfl
  | cons field fields ih =>
      obtain ⟨name, a⟩ := field
      obtain ⟨hname, h⟩ := List.nodup_cons.mp h
      by_cases hkey : name = key
      · subst hkey
        have hnone : fields.filter (·.1 = name) = [] := by
          rw [List.filter_eq_nil_iff]
          intro f hf heq
          exact hname (List.mem_map.mpr ⟨f, hf, of_decide_eq_true heq⟩)
        simp [hnone]
      · have hne : (key == name) = false := beq_false_of_ne (Ne.symm hkey)
        simp [List.lookup_cons, hkey, hne, ih h]

/-- When every key stands once, a record has under each key what an object has there. -/
theorem record?_obj {fields : List (String × Json)} (h : (fields.map (·.1)).Nodup)
    (keys : List String) :
    (obj fields).record? keys = some (keys.map fun key => fields.lookup key) := by
  rw [record?]
  induction keys with
  | nil => rfl
  | cons key keys ih =>
      rw [List.mapM_cons, ih, filter_eq_lookup h, List.map_cons]
      cases fields.lookup key with
      | none => rfl
      | some j => rfl

theorem nullable?_of_read {α : Type} {read : Json → Option α} {j : Json} {a : α}
    (h : read j = some a) (hnull : j ≠ .null) : j.nullable? read = some (some a) := by
  rw [nullable?, h]
  · rfl
  · exact hnull

theorem nullable?_ofOption {α : Type} {read : Json → Option α} {write : α → Json}
    (h : ∀ a, read (write a) = some a) (hnull : ∀ a, write a ≠ .null) (a : Option α) :
    (ofOption write a).nullable? read = some a := by
  cases a with
  | none => rfl
  | some a => exact nullable?_of_read (h a) (hnull a)

/-! ## Solid values -/

theorem allSolid_iff {js : List Json} : allSolid js = true ↔ ∀ j ∈ js, j.isSolid = true := by
  induction js with
  | nil => simp [allSolid]
  | cons j js ih => simp [allSolid, ih]

theorem fieldsSolid_iff {fields : List (String × Json)} :
    fieldsSolid fields = true ↔ ∀ f ∈ fields, f.2.isSolid = true := by
  induction fields with
  | nil => simp [fieldsSolid]
  | cons f fields ih => simp [fieldsSolid, ih]

@[simp] theorem isSolid_obj {fields : List (String × Json)} :
    (obj fields).isSolid = true ↔ ∀ f ∈ fields, f.2.isSolid = true := by
  rw [isSolid, fieldsSolid_iff]

@[simp] theorem isSolid_arr {js : List Json} :
    (arr js).isSolid = true ↔ ∀ j ∈ js, j.isSolid = true := by
  rw [isSolid, allSolid_iff]

@[simp] theorem isSolid_str (s : String) : (str s).isSolid = true := rfl

@[simp] theorem isSolid_bool (b : Bool) : (bool b).isSolid = true := rfl

@[simp] theorem isSolid_ofWord (w : UInt32) : (ofWord w).isSolid = true := rfl

@[simp] theorem isSolid_ofStringOption (s : Option String) :
    (ofOption str s).isSolid = true := by
  cases s <;> rfl

end Json

@[simp] theorem Cursor.isSolid_toJson (c : Cursor) : c.toJson.isSolid = true := by
  simp [toJson]

@[simp] theorem Location.isSolid_toJson (l : Location) : l.toJson.isSolid = true := by
  simp [toJson]

@[simp] theorem Outcome.isSolid_toJson (o : Outcome) : o.toJson.isSolid = true := rfl

@[simp] theorem ClassPart.isSolid_toJson (p : ClassPart) : p.toJson.isSolid = true := by
  cases p <;> simp [toJson]

@[simp] theorem Code.isSolid_toJson (c : Code) : c.toJson.isSolid = true := by
  simp [toJson, fields]

theorem Operator.isSolid_fields (op : Operator) : ∀ f ∈ op.fields, f.2.isSolid = true := by
  cases op <;> simp [fields, Code.fields]

theorem Leaf.isSolid_fields (l : Leaf) : ∀ f ∈ l.fields, f.2.isSolid = true := by
  cases l <;> simp [fields, Code.fields, Json.ofList]

theorem Tag.isSolid_fields (t : Tag) : ∀ f ∈ t.fields, f.2.isSolid = true := by
  simp [fields]

/-! ## Expressions -/

namespace Expr

/-- What is written of a node between its kind and its tag. -/
def payload : Expr → List (String × Json)
  | choice _ es => [("alternatives", .arr (listToJson es))]
  | sequence _ es => [("elements", .arr (listToJson es))]
  | apply _ op e => ("expression", e.toJson) :: op.fields
  | leaf _ l => l.fields

def fields (e : Expr) : List (String × Json) :=
  ("type", .str e.kind) :: (e.payload ++ e.tag.fields)

theorem toJson_eq (e : Expr) : e.toJson = .obj e.fields := by
  cases e <;> simp [toJson, fields, payload, kind, tag]

theorem keys_nodup (e : Expr) : (e.fields.map (·.1)).Nodup := by
  cases e with
  | choice t es => simp [fields, payload, Tag.fields]
  | sequence t es => simp [fields, payload, Tag.fields]
  | apply t op e => cases op <;> simp [fields, payload, Operator.fields, Code.fields, Tag.fields]
  | leaf t l => cases l <;> simp [fields, payload, Leaf.fields, Code.fields, Tag.fields]

theorem listToJson_eq_map (es : List Expr) : listToJson es = es.map toJson := by
  induction es with
  | nil => rfl
  | cons e es ih => rw [listToJson, ih, List.map_cons]

theorem record?_toJson (e : Expr) (keys : List String) :
    e.toJson.record? keys = some (keys.map fun key => e.fields.lookup key) := by
  rw [toJson_eq, Json.record?_obj e.keys_nodup]

/-! ### The tag and the kind -/

theorem lookup_location (e : Expr) :
    e.fields.lookup "location" = some e.tag.location.toJson := by
  cases e with
  | choice t es => rfl
  | sequence t es => rfl
  | apply t op e => cases op <;> rfl
  | leaf t l => cases l <;> rfl

theorem lookup_match (e : Expr) : e.fields.lookup "match" = some e.tag.outcome.toJson := by
  cases e with
  | choice t es => rfl
  | sequence t es => rfl
  | apply t op e => cases op <;> rfl
  | leaf t l => cases l <;> rfl

@[simp] theorem ofJson?_tag (e : Expr) : Tag.ofJson? e.toJson = some e.tag := by
  simp [Tag.ofJson?, record?_toJson, lookup_location, lookup_match]

/-! ### Operators and leaves -/

theorem ofJson?_code {e : Expr} {c : Code} (hcode : e.fields.lookup "code" = some (.str c.text))
    (hlocation : e.fields.lookup "codeLocation" = some c.location.toJson) :
    Code.ofJson? e.toJson = some c := by
  simp [Code.ofJson?, record?_toJson, hcode, hlocation]

theorem ofJson?_operator (t : Tag) (op : Operator) (e : Expr) :
    Operator.ofJson? op.kind (apply t op e).toJson = some op := by
  cases op with
  | named name =>
      have hname : (apply t (.named name) e).fields.lookup "name" = some (.str name) := rfl
      simp [Operator.ofJson?, Operator.kind, Operator.readNamed?, record?_toJson, hname]
  | action c =>
      have hcode := ofJson?_code (e := apply t (.action c) e) (c := c) rfl rfl
      simp [Operator.ofJson?, Operator.kind, hcode]
  | labeled label location pick =>
      have hlabel : (apply t (.labeled label location pick) e).fields.lookup "label" =
          some (.ofOption .str label) := rfl
      have hlocation : (apply t (.labeled label location pick) e).fields.lookup "labelLocation" =
          some location.toJson := rfl
      have hpick : (apply t (.labeled label location pick) e).fields.lookup "pick" =
          some (.bool pick) := rfl
      have hnull := Json.nullable?_ofOption Json.str?_str (by simp) label
      simp [Operator.ofJson?, Operator.kind, Operator.readLabeled?, record?_toJson, hlabel,
        hlocation, hpick, hnull]
  | text | simpleAnd | simpleNot | optional | zeroOrMore | oneOrMore | group => rfl

theorem ofJson?_leaf (t : Tag) (l : Leaf) :
    Leaf.ofJson? l.kind (leaf t l).toJson = some l := by
  cases l with
  | semanticAnd c =>
      have hcode := ofJson?_code (e := leaf t (.semanticAnd c)) (c := c) rfl rfl
      simp [Leaf.ofJson?, Leaf.kind, hcode]
  | semanticNot c =>
      have hcode := ofJson?_code (e := leaf t (.semanticNot c)) (c := c) rfl rfl
      simp [Leaf.ofJson?, Leaf.kind, hcode]
  | ruleRef name =>
      have hname : (leaf t (.ruleRef name)).fields.lookup "name" = some (.str name) := rfl
      simp [Leaf.ofJson?, Leaf.kind, Leaf.readRuleRef?, record?_toJson, hname]
  | literal value ignoreCase =>
      have hvalue : (leaf t (.literal value ignoreCase)).fields.lookup "value" =
          some (.str value) := rfl
      have hcase : (leaf t (.literal value ignoreCase)).fields.lookup "ignoreCase" =
          some (.bool ignoreCase) := rfl
      simp [Leaf.ofJson?, Leaf.kind, Leaf.readLiteral?, record?_toJson, hvalue, hcase]
  | charClass set =>
      have hparts : (leaf t (.charClass set)).fields.lookup "parts" =
          some (.ofList ClassPart.toJson set.parts) := rfl
      have hinverted : (leaf t (.charClass set)).fields.lookup "inverted" =
          some (.bool set.inverted) := rfl
      have hcase : (leaf t (.charClass set)).fields.lookup "ignoreCase" =
          some (.bool set.ignoreCase) := rfl
      have hread := Json.list?_ofList ClassPart.ofJson?_toJson set.parts
      simp [Leaf.ofJson?, Leaf.kind, Leaf.readCharClass?, record?_toJson, hparts, hinverted, hcase,
        hread]
  | any => rfl

/-- No kind is the kind of an operator and of a leaf. -/
theorem ofJson?_operator_of_leaf (l : Leaf) (j : Json) : Operator.ofJson? l.kind j = none := by
  cases l <;> rfl

/-! ### Children -/

/-- What the value of one field is as an expression and as a list of expressions. -/
def childOfJson : Json → Child
  | .arr items => ⟨none, listOfJson? items⟩
  | j => ⟨ofJson? j, none⟩

theorem childrenOfJson_eq_map (fields : List (String × Json)) :
    childrenOfJson fields = fields.map fun f => (f.1, childOfJson f.2) := by
  induction fields with
  | nil => rfl
  | cons f fields ih =>
      obtain ⟨key, j⟩ := f
      cases j <;> simp [childrenOfJson, childOfJson, ih]

theorem lookup_map {α β : Type} (f : α → β) (fields : List (String × α)) (key : String) :
    (fields.map fun field => (field.1, f field.2)).lookup key = (fields.lookup key).map f := by
  induction fields with
  | nil => rfl
  | cons field fields ih =>
      obtain ⟨name, a⟩ := field
      rw [List.map_cons, List.lookup_cons, List.lookup_cons, ih]
      cases key == name <;> rfl

theorem child?_childrenOfJson (e : Expr) (key : String) :
    child? (childrenOfJson e.fields) key = (e.fields.lookup key).map childOfJson := by
  have hnodup : ((childrenOfJson e.fields).map (·.1)).Nodup := by
    simpa [childrenOfJson_eq_map, Function.comp_def] using e.keys_nodup
  rw [child?, Json.filter_eq_lookup hnodup, childrenOfJson_eq_map, lookup_map]
  cases e.fields.lookup key with
  | none => rfl
  | some j => rfl

/-- A node is read from its tag, its kind and its children. -/
theorem ofJson?_toJson_eq (e : Expr) :
    ofJson? e.toJson = assemble? e.toJson (childrenOfJson e.fields) := by
  rw [toJson_eq, ofJson?]

theorem childOfJson_toJson (e : Expr) : childOfJson e.toJson = ⟨ofJson? e.toJson, none⟩ := by
  rw [toJson_eq, childOfJson]
  simp

theorem listOfJson?_listToJson {es : List Expr} (h : ∀ e ∈ es, ofJson? e.toJson = some e) :
    listOfJson? (listToJson es) = some es := by
  induction es with
  | nil => rfl
  | cons e es ih =>
      rw [List.forall_mem_cons] at h
      simp [listToJson, listOfJson?, h.1, ih h.2]

/-- What is written of an expression is read as this expression. -/
theorem read_toJson (e : Expr) : ofJson? e.toJson = some e := by
  induction e with
  | choice t es ih =>
      have hkind : (choice t es).fields.lookup "type" = some (.str "choice") := rfl
      have hes : (choice t es).fields.lookup "alternatives" = some (.arr (listToJson es)) := rfl
      simp [ofJson?_toJson_eq, assemble?, record?_toJson, child?_childrenOfJson, hkind, hes,
        kindOfJson?, childOfJson, listOfJson?_listToJson ih, tag]
  | sequence t es ih =>
      have hkind : (sequence t es).fields.lookup "type" = some (.str "sequence") := rfl
      have hes : (sequence t es).fields.lookup "elements" = some (.arr (listToJson es)) := rfl
      simp [ofJson?_toJson_eq, assemble?, record?_toJson, child?_childrenOfJson, hkind, hes,
        kindOfJson?, childOfJson, listOfJson?_listToJson ih, tag]
  | apply t op e ih =>
      have hkind : (apply t op e).fields.lookup "type" = some (.str op.kind) := rfl
      have hbody : (apply t op e).fields.lookup "expression" = some e.toJson := rfl
      have hchoice : op.kind ≠ "choice" := by cases op <;> simp [Operator.kind]
      have hsequence : op.kind ≠ "sequence" := by cases op <;> simp [Operator.kind]
      simp [ofJson?_toJson_eq, assemble?, record?_toJson, child?_childrenOfJson, hkind, hbody,
        kindOfJson?, childOfJson_toJson, hchoice, hsequence, ofJson?_operator, ih, tag]
  | leaf t l =>
      have hkind : (leaf t l).fields.lookup "type" = some (.str l.kind) := rfl
      have hchoice : l.kind ≠ "choice" := by cases l <;> simp [Leaf.kind]
      have hsequence : l.kind ≠ "sequence" := by cases l <;> simp [Leaf.kind]
      simp [ofJson?_toJson_eq, assemble?, record?_toJson, hkind, kindOfJson?, hchoice, hsequence,
        ofJson?_operator_of_leaf, ofJson?_leaf, tag]

theorem isSolid_of_payload {e : Expr} (h : ∀ f ∈ e.payload, f.2.isSolid = true) :
    e.toJson.isSolid = true := by
  rw [toJson_eq, Json.isSolid_obj, fields, List.forall_mem_cons]
  exact ⟨rfl, List.forall_mem_append.mpr ⟨h, e.tag.isSolid_fields⟩⟩

/-- Nothing void is written. -/
theorem isSolid_toJson (e : Expr) : e.toJson.isSolid = true := by
  induction e with
  | choice t es ih => exact isSolid_of_payload (by simpa [payload, listToJson_eq_map] using ih)
  | sequence t es ih => exact isSolid_of_payload (by simpa [payload, listToJson_eq_map] using ih)
  | apply t op e ih => exact isSolid_of_payload (List.forall_mem_cons.mpr ⟨ih, op.isSolid_fields⟩)
  | leaf t l => exact isSolid_of_payload l.isSolid_fields

theorem isLegible_toJson (e : Expr) : isLegible e.toJson = true := by
  have hsolid := e.isSolid_toJson
  rw [toJson_eq, Json.isSolid_obj] at hsolid
  rw [toJson_eq, isLegible, List.all_eq_true]
  intro f hf
  simp [hsolid f hf]

end Expr

/-! ## Rules and grammars -/

theorem Code.read_toJson (c : Code) : ofJson? c.toJson = some c := by
  simp [ofJson?, toJson, fields, Json.record?]

theorem Rule.read_toJson (r : Rule) : ofJson? r.toJson = some r := by
  have hword := Json.list?_ofList Json.word?_ofWord
  have houtcome (o : Outcome) : o.toJson.nullable? Outcome.ofJson? = some (some o) :=
    Json.nullable?_of_read o.ofJson?_toJson (by simp [Outcome.toJson])
  have hbytecode (ws : List UInt32) : (Json.ofList Json.ofWord ws).nullable?
      (Json.list? Json.word?) = some (some ws) :=
    Json.nullable?_of_read (hword ws) (by simp [Json.ofList])
  rcases r with ⟨name, nameLocation, body, location, outcome, bytecode⟩
  cases outcome <;> cases bytecode <;>
    simp [ofJson?, toJson, optionalField, Json.record?, Expr.isLegible_toJson, Expr.read_toJson,
      houtcome, hbytecode]

theorem Grammar.read_toJson (g : Grammar) :
    ofJson? g.toJson = some { g with constants := none } := by
  have hcode (c : Option Code) := Json.nullable?_ofOption Code.read_toJson (by simp [Code.toJson]) c
  have hrules := Json.list?_ofList Rule.read_toJson g.rules
  simp [ofJson?, toJson, Json.record?, hcode, hrules]

theorem Grammar.constants_of_ofJson? {j : Json} {g : Grammar} (h : ofJson? j = some g) :
    g.constants = none := by
  rw [ofJson?] at h
  split at h
  · simp only [Option.bind_eq_bind, Option.bind_eq_some_iff, Option.pure_def,
      Option.some.injEq] at h
    obtain ⟨_, -, _, -, _, -, _, -, rfl⟩ := h
    rfl
  · exact nomatch h

/-- What is written of a grammar is read as this grammar without its constants; so a grammar that
was read from anything is read again from what is written of it. -/
theorem Grammar.reads_written :
    (∀ g : Grammar, ofJson? g.toJson = some { g with constants := none }) ∧
      ∀ (j : Json) (g : Grammar), ofJson? j = some g → ofJson? g.toJson = some g := by
  refine ⟨read_toJson, fun j g hj => ?_⟩
  rw [read_toJson, ← constants_of_ofJson? hj]

/-- A grammar with as little written of it as a reader accepts, and its kind by position. -/
theorem Grammar.reads_written_of_defaults :
    ofJson? (.obj [("rules", .arr [.obj [("name", .str "start"),
      ("expression", .obj [("type", .int 17)])]])]) =
        some (Build.grammar [Build.rule "start" Build.any]) ∧
      ofJson? (Build.grammar [Build.rule "start" Build.any]).toJson =
        some (Build.grammar [Build.rule "start" Build.any]) := by
  have hread : ofJson? (.obj [("rules", .arr [.obj [("name", .str "start"),
      ("expression", .obj [("type", .int 17)])]])]) =
        some (Build.grammar [Build.rule "start" Build.any]) := by
    rfl
  exact ⟨hread, reads_written.2 _ _ hread⟩

end PegCompiler
