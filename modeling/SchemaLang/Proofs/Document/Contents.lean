import SchemaLang.Proofs.Document.Unbound
import SchemaLang.Proofs.Reader.Ensures
import SchemaLang.Proofs.Text.Language

/-! What is inside of a document: its names, references, applied directives and values, listed part
by part. However much of a text could not be read, what was read is in order: each part stands under
its own name and no two under one, names and numbers are words of their languages, and references
are as they can be written and bound to nothing. -/

namespace SchemaLang

/-! ### Parts -/

namespace Value

mutual

/-- The value and all values inside of it. -/
def parts : Value → List Value
  | list items => list items :: itemParts items
  | object entries => object entries :: entryParts entries
  | v => [v]

def itemParts : List Value → List Value
  | [] => []
  | v :: vs => parts v ++ itemParts vs

def entryParts : List (String × Value) → List Value
  | [] => []
  | (_, v) :: es => parts v ++ entryParts es

end

/-- The names that a value itself shows: an enum constant is one, and an object has its keys. -/
def ownNames : Value → List String
  | enum name => [name]
  | object entries => entries.map Prod.fst
  | int _ | float _ | string _ | boolean _ | null | list _ => []

/-- Numbers are written as numbers, and an enum constant is none of the other constants. -/
def Proper : Value → Prop
  | int text => text.toList ∈ Lexicon.integer
  | float text => text.toList ∈ Lexicon.float
  | enum name => name ∉ ["true", "false", "null"]
  | string _ | boolean _ | null | list _ | object _ => True

theorem itemParts_eq (vs : List Value) : itemParts vs = vs.flatMap parts := by
  induction vs with
  | nil => rw [itemParts, List.flatMap_nil]
  | cons v vs ih => rw [itemParts, List.flatMap_cons, ih]

theorem entryParts_eq (es : List (String × Value)) :
    entryParts es = es.flatMap fun e => e.2.parts := by
  induction es with
  | nil => rw [entryParts, List.flatMap_nil]
  | cons e es ih => rw [entryParts, List.flatMap_cons, ih]

end Value

namespace TypeBody

def fields : TypeBody → List Field
  | object b | interface b => b.fields.values
  | scalar | union _ | enum _ | input _ => []

def inputFields : TypeBody → List InputValue
  | input fs => fs.values
  | scalar | object _ | interface _ | union _ | enum _ => []

def enumValues : TypeBody → List EnumValue
  | enum vs => vs
  | scalar | object _ | interface _ | union _ | input _ => []

def members : TypeBody → List TypeRef
  | union rs => rs
  | scalar | object _ | interface _ | enum _ | input _ => []

end TypeBody

theorem TypeDefinition.fields_eq (t : TypeDefinition) :
    t.body.fields = (t.fields?.map (·.values)).getD [] := by
  unfold fields?
  cases t.body <;> rfl

namespace Document

variable (d : Document)

def fields : List Field := d.types.values.flatMap (·.body.fields)

def enumValues : List EnumValue := d.types.values.flatMap (·.body.enumValues)

/-- The arguments that each field and each directive declares. -/
def argumentLists : List (List InputValue) :=
  d.fields.map (·.arguments) ++ d.directives.values.map (·.arguments)

/-- Declared arguments and input fields. -/
def inputValues : List InputValue :=
  d.argumentLists.flatten ++ d.types.values.flatMap (·.body.inputFields)

/-- Directives as they are applied to the parts of a document. -/
def applied : List Directive :=
  (d.schema.map (·.directives)).getD [] ++ d.types.values.flatMap (·.directives) ++
    d.fields.flatMap (·.directives) ++ d.inputValues.flatMap (·.directives) ++
    d.enumValues.flatMap (·.directives)

/-- Default values, values handed to directives, and what is inside of them. -/
def values : List Value :=
  (d.inputValues.filterMap (·.defaultValue) ++
    d.applied.flatMap fun x => x.arguments.map (·.value)).flatMap Value.parts

/-- All names: those that are declared, those that are referred to, those of applied directives and
of the values handed to them, and those in values. -/
def names : List String :=
  d.types.values.map (·.name.value) ++ d.directives.values.map (·.name.value) ++
    d.fields.map (·.name.value) ++ d.inputValues.map (·.name.value) ++
    d.enumValues.map (·.name.value) ++ d.refs.map (·.2.name) ++
    d.applied.flatMap (fun x => x.name.value :: x.arguments.map (·.name.value)) ++
    d.values.flatMap Value.ownNames

/-- References where only a name can stand: interfaces, members of unions and the types of root
operations. -/
def namedRefs : List TypeRef :=
  d.types.values.flatMap (·.interfaces) ++ d.types.values.flatMap (·.body.members) ++
    ((d.schema.map (·.operations)).getD []).map (·.type)

end Document

/-! ### Words -/

namespace Lexeme

theorem Relexes.mem_language {k : TokenKind} {w : List Char} (h : Relexes k w) (hk : k ≠ .error) :
    w ∈ k.language := by
  obtain ⟨c, cs, -, hscan⟩ := h.scan_alone
  have hmem : (scan c cs).kind ≠ .error → (scan c cs).text ∈ (scan c cs).kind.language :=
    text_scan_mem_language
  rw [hscan] at hmem
  exact hmem hk

end Lexeme

theorem Keyword.text_mem_name (k : Keyword) : k.text.toList ∈ Lexicon.name := by
  refine Lexicon.mem_name.mpr ⟨?_, ?_⟩
  · cases k <;> exact ⟨_, rfl, by decide⟩
  · cases k <;> decide

theorem IsName.mem_name {s : String} (h : IsName s) : s.toList ∈ Lexicon.name := by
  obtain ⟨k, hk, hrelexes⟩ := h
  cases k with
  | ident => exact (hrelexes.mem_language nofun).1
  | keyword w =>
    have hs : s.toList = w.text.toList := hrelexes.mem_language nofun
    rw [hs]
    exact w.text_mem_name
  | eof | error | int | float | string | blockString | mark _ => cases hk

theorem notMem_constants {k : TokenKind} {s : String} (hk : k.isConstant = false)
    (h : Lexeme.Relexes k s.toList) : s ∉ ["true", "false", "null"] := by
  have hne : ∀ w : Keyword, (TokenKind.keyword w).isConstant = true → s ≠ w.text := by
    rintro w hw rfl
    rw [← h.kindOf_eq, (Lexeme.relexes_keyword w).kindOf_eq, hw] at hk
    cases hk
  simp only [List.mem_cons, List.not_mem_nil, or_false, not_or]
  exact ⟨hne .trueValue rfl, hne .falseValue rfl, hne .null rfl⟩

/-! ### Parts of what is well-formed -/

namespace Value

/-- What is inside of a well-formed value is well-formed. -/
theorem WellFormed.parts {v : Value} (h : v.WellFormed) : ∀ w ∈ v.parts, w.WellFormed := by
  induction h with
  | list h ih =>
    rw [Value.parts, itemParts_eq]
    refine List.forall_mem_cons.mpr ⟨.list h, fun w hw => ?_⟩
    obtain ⟨v, hv, hw⟩ := List.mem_flatMap.mp hw
    exact ih v hv w hw
  | object hn hv ih =>
    rw [Value.parts, entryParts_eq]
    refine List.forall_mem_cons.mpr ⟨.object hn hv, fun w hw => ?_⟩
    obtain ⟨e, he, hw⟩ := List.mem_flatMap.mp hw
    exact ih e he w hw
  | int h => exact List.forall_mem_singleton.mpr (.int h)
  | float h => exact List.forall_mem_singleton.mpr (.float h)
  | string s => exact List.forall_mem_singleton.mpr (.string s)
  | boolean b => exact List.forall_mem_singleton.mpr (.boolean b)
  | null => exact List.forall_mem_singleton.mpr .null
  | enum hk hc h => exact List.forall_mem_singleton.mpr (.enum hk hc h)

theorem WellFormed.proper {v : Value} (h : v.WellFormed) : v.Proper := by
  cases h with
  | int h => exact h.mem_language nofun
  | float h => exact h.mem_language nofun
  | enum _ hc h => exact notMem_constants hc h
  | string _ | boolean _ | null | list _ | object _ _ => trivial

theorem WellFormed.isName_of_mem {v : Value} (h : v.WellFormed) : ∀ n ∈ v.ownNames, IsName n := by
  cases h with
  | enum hk _ h => exact List.forall_mem_singleton.mpr ⟨_, hk, h⟩
  | object hn _ => exact List.forall_mem_map.mpr hn
  | int _ | float _ | string _ | boolean _ | null | list _ => nofun

end Value

namespace TypeBody.WellFormed

variable {b : TypeBody} (h : b.WellFormed)

include h

theorem fields : ∀ f ∈ b.fields, f.WellFormed := by
  cases b with
  | object b | interface b => exact FieldSet.WellFormed.fields h
  | scalar | union _ | enum _ | input _ => nofun

theorem inputFields : ∀ v ∈ b.inputFields, v.WellFormed := by
  cases b with
  | input fs => exact h.2
  | scalar | object _ | interface _ | union _ | enum _ => nofun

theorem enumValues : ∀ v ∈ b.enumValues, v.WellFormed := by
  cases b with
  | enum vs => exact h
  | scalar | object _ | interface _ | union _ | input _ => nofun

theorem members : ∀ r ∈ b.members, r.IsNamed := by
  cases b with
  | union rs => exact h
  | scalar | object _ | interface _ | enum _ | input _ => nofun

theorem fieldSet {fs : FieldSet} (hfs : b.fieldSet? = some fs) : fs.WellFormed := by
  cases b with
  | object b | interface b => exact Option.some.inj hfs ▸ h
  | scalar | union _ | enum _ | input _ => cases hfs

end TypeBody.WellFormed

namespace Document.WellFormed

variable {d : Document} (h : d.WellFormed)

include h

theorem fields : ∀ f ∈ d.fields, f.WellFormed := by
  intro f hf
  obtain ⟨t, ht, hf⟩ := List.mem_flatMap.mp hf
  exact (h.types t ht).body.fields f hf

theorem keyedBy_fields {t : TypeDefinition} (ht : t ∈ d.types.values) {fs : Table Field}
    (hfs : t.fields? = some fs) : fs.KeyedBy (·.name.value) := by
  obtain ⟨b, hb, rfl⟩ := Option.map_eq_some_iff.mp hfs
  exact ((h.types t ht).body.fieldSet hb).keyed

theorem enumValues : ∀ v ∈ d.enumValues, v.WellFormed := by
  intro v hv
  obtain ⟨t, ht, hv⟩ := List.mem_flatMap.mp hv
  exact (h.types t ht).body.enumValues v hv

theorem argumentLists : ∀ vs ∈ d.argumentLists, InputValue.AreArguments vs := by
  intro vs hvs
  rcases List.mem_append.mp hvs with hvs | hvs
  · obtain ⟨f, hf, rfl⟩ := List.mem_map.mp hvs
    exact (h.fields f hf).arguments
  · obtain ⟨v, hv, rfl⟩ := List.mem_map.mp hvs
    exact (h.directives v hv).arguments

theorem inputValues : ∀ v ∈ d.inputValues, v.WellFormed := by
  intro v hv
  rcases List.mem_append.mp hv with hv | hv
  · obtain ⟨vs, hvs, hv⟩ := List.mem_flatten.mp hv
    exact (h.argumentLists vs hvs).wellFormed v hv
  · obtain ⟨t, ht, hv⟩ := List.mem_flatMap.mp hv
    exact (h.types t ht).body.inputFields v hv

theorem applied : ∀ x ∈ d.applied, x.WellFormed := by
  have hflatMap {α : Type} {l : List α} {f : α → List Directive}
      (hl : ∀ a ∈ l, ∀ x ∈ f a, x.WellFormed) : ∀ x ∈ l.flatMap f, x.WellFormed := by
    intro x hx
    obtain ⟨a, ha, hx⟩ := List.mem_flatMap.mp hx
    exact hl a ha x hx
  simp only [Document.applied, List.forall_mem_append]
  refine ⟨⟨⟨⟨?_, hflatMap fun t ht => (h.types t ht).directives⟩,
    hflatMap fun f hf => (h.fields f hf).directives⟩,
    hflatMap fun v hv => (h.inputValues v hv).directives⟩,
    hflatMap fun v hv => (h.enumValues v hv).directives⟩
  cases hs : d.schema with
  | none => nofun
  | some s => exact (h.schema s hs).directives

theorem values : ∀ v ∈ d.values, v.WellFormed := by
  intro w hw
  obtain ⟨v, hv, hw⟩ := List.mem_flatMap.mp hw
  refine Value.WellFormed.parts ?_ w hw
  rcases List.mem_append.mp hv with hv | hv
  · obtain ⟨u, hu, hv⟩ := List.mem_filterMap.mp hv
    exact (h.inputValues u hu).defaultValue v hv
  · obtain ⟨x, hx, hv⟩ := List.mem_flatMap.mp hv
    obtain ⟨a, ha, rfl⟩ := List.mem_map.mp hv
    exact ((h.applied x hx).arguments a ha).value

theorem namedRefs : ∀ r ∈ d.namedRefs, r.IsNamed := by
  simp only [Document.namedRefs, List.forall_mem_append, List.forall_mem_map]
  refine ⟨⟨?_, ?_⟩, ?_⟩
  · intro r hr
    obtain ⟨t, ht, hr⟩ := List.mem_flatMap.mp hr
    unfold TypeDefinition.interfaces at hr
    cases hb : t.body.fieldSet? with
    | none => simp [hb] at hr
    | some fs =>
      rw [hb] at hr
      exact ((h.types t ht).body.fieldSet hb).interfaces.named r hr
  · intro r hr
    obtain ⟨t, ht, hr⟩ := List.mem_flatMap.mp hr
    exact (h.types t ht).body.members r hr
  · cases hs : d.schema with
    | none => nofun
    | some s => exact (h.schema s hs).operations

theorem names : ∀ n ∈ d.names, IsName n := by
  simp only [Document.names, List.forall_mem_append, List.forall_mem_map, List.forall_mem_flatMap,
    List.forall_mem_cons]
  refine ⟨⟨⟨⟨⟨⟨⟨?_, ?_⟩, ?_⟩, ?_⟩, ?_⟩, ?_⟩, ?_⟩, ?_⟩
  · exact fun t ht => (h.types t ht).name
  · exact fun v hv => (h.directives v hv).name
  · exact fun f hf => (h.fields f hf).name
  · exact fun v hv => (h.inputValues v hv).name
  · intro v hv
    obtain ⟨k, hk, -, hrelexes⟩ := (h.enumValues v hv).name
    exact ⟨k, hk, hrelexes⟩
  · exact fun e he => (h.reference (Document.mem_refs_iff.mp he)).name
  · exact fun x hx => ⟨(h.applied x hx).name, fun a ha => ((h.applied x hx).arguments a ha).name⟩
  · exact fun v hv => (h.values v hv).isName_of_mem

end Document.WellFormed

/-! ### Regular documents -/

/-- A document is in order, told of its parts. What a directive is applied with and the entries of
an object declare nothing, and are kept as they are written. -/
structure Document.Regular (d : Document) : Prop where
  /-- Types, directives and fields stand under their own names, each under another one. -/
  types : d.types.KeyedBy (·.name.value) ∧ d.types.keys.Nodup
  directives : d.directives.KeyedBy (·.name.value) ∧ d.directives.keys.Nodup
  fields : ∀ t ∈ d.types.values, ∀ fs, t.fields? = some fs →
    fs.KeyedBy (·.name.value) ∧ (fs.values.map (·.name.value)).Nodup
  inputFields : ∀ t ∈ d.types.values, ∀ fs, t.body = .input fs →
    fs.KeyedBy (·.name.value) ∧ (fs.values.map (·.name.value)).Nodup
  /-- No interface is named twice by one type, and no argument is declared twice. -/
  interfaces : ∀ t ∈ d.types.values, (t.interfaces.map (·.name)).Nodup
  arguments : ∀ vs ∈ d.argumentLists, (vs.map (·.name.value)).Nodup
  /-- A directive can stand somewhere. -/
  locations : ∀ v ∈ d.directives.values, v.locations ≠ []
  /-- References are bound to nothing, and what is never null is not wrapped so again. -/
  binding : ∀ p r, d.ref? p = some r → r.binding = none
  wrappers : ∀ p r, d.ref? p = some r →
    ∀ i, r.wrappers[i]? = some .nonNull → r.wrappers[i + 1]? ≠ some .nonNull
  named : ∀ r ∈ d.namedRefs, r.wrappers = []
  /-- Names are words, and the values of an enum none of the constants. -/
  names : ∀ n ∈ d.names, n.toList ∈ Lexicon.name
  enumValues : ∀ v ∈ d.enumValues, v.name.value ∉ ["true", "false", "null"]
  values : ∀ v ∈ d.values, v.Proper

/-- Whatever a text is, what is read from it is in order. -/
theorem regular_parse (source name : String) : (parse source name).document.Regular := by
  have h := wellFormed_parse source name
  refine ⟨⟨h.keyed.types, Table.distinct _⟩, ⟨h.keyed.directives, Table.distinct _⟩, ?_, ?_, ?_, ?_,
    ?_, ?_, ?_, ?_, ?_, ?_, ?_⟩
  · intro t ht fs hfs
    have hkeyed := h.keyedBy_fields ht hfs
    exact ⟨hkeyed, hkeyed.nodup⟩
  · intro t ht fs hfs
    have hbody := (h.types t ht).body
    rw [hfs] at hbody
    exact ⟨hbody.1, hbody.1.nodup⟩
  · intro t ht
    unfold TypeDefinition.interfaces
    cases hb : t.body.fieldSet? with
    | none => exact List.nodup_nil
    | some fs => exact ((h.types t ht).body.fieldSet hb).interfaces.distinct
  · exact fun vs hvs => (h.argumentLists vs hvs).distinct
  · exact fun v hv => (h.directives v hv).locations
  · exact fun p r hr => h.binding hr
  · intro p r hr i hi hnext
    obtain ⟨_, hi⟩ := List.getElem?_eq_some_iff.mp hi
    obtain ⟨hlt, hnext⟩ := List.getElem?_eq_some_iff.mp hnext
    exact List.isChain_iff_getElem.mp (h.reference hr).wrappers i hlt hi hnext
  · exact fun r hr => (h.namedRefs r hr).wrappers
  · exact fun n hn => (h.names n hn).mem_name
  · intro v hv
    obtain ⟨k, -, hk, hrelexes⟩ := (h.enumValues v hv).name
    exact notMem_constants hk hrelexes
  · exact fun v hv => (h.values v hv).proper

end SchemaLang
