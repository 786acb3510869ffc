import SchemaLang.Proofs.Document.Append
import SchemaLang.Proofs.Document.Equality

/-! Documents with the same definitions in another order. Their names lead to the same
definitions, they compare equal, and they mention the same names equally often. They compare equal
too if the fields of the definitions come in another order. -/

namespace SchemaLang

/-! ### Tables -/

namespace Table

variable {α : Type} {t u : Table α}

theorem perm_values (h : t.entries.Perm u.entries) : t.values.Perm u.values := h.map Prod.snd

theorem perm_map {β : Type} (f : α → β) (h : t.entries.Perm u.entries) :
    (t.map f).entries.Perm (u.map f).entries := h.map _

theorem sorted_of_perm (h : t.entries.Perm u.entries) : t.sorted = u.sorted :=
  sorted_eq_iff.mpr (get?_of_perm h)

/-- The entries of tables that have no name in common, one behind the other. -/
theorem entries_foldr_append {ts : List (Table α)} (h : (ts.flatMap keys).Nodup) :
    (ts.foldr append ∅).entries = ts.flatMap entries := by
  induction ts with
  | nil => rfl
  | cons t ts ih =>
    rw [List.flatMap_cons, List.nodup_append] at h
    have hkeys : (ts.foldr append ∅).keys = ts.flatMap keys := by
      rw [keys, ih h.2.1, List.map_flatMap]
      rfl
    rw [List.foldr_cons, entries_append, ih h.2.1, List.flatMap_cons]
    rw [hkeys]
    exact fun k hk hkt => h.2.2 k hkt k hk rfl

end Table

/-! ### Names in references -/

/-- Does a name stand where an interface has to be? -/
def TypePath.isInterface (p : TypePath) : Bool := (RefPath.type 0 p).isInterface

/-- The names that a type refers to, and for each whether it has to be an interface. -/
def TypeDefinition.refNames (t : TypeDefinition) : List (Bool × String) :=
  t.refs.map fun e => (e.1.isInterface, e.2.name)

namespace Document

/-- The names that a document refers to, and for each whether it has to be an interface. -/
def refNames (d : Document) : List (Bool × String) :=
  d.refs.map fun e => (e.1.isInterface, e.2.name)

end Document

theorem List.flatMap_zipIdx {α β : Type} (l : List α) (f : α → List β) (n : Nat) :
    ((l.zipIdx n).flatMap fun e => f e.1) = l.flatMap f := by
  induction l generalizing n with
  | nil => rfl
  | cons a l ih => rw [List.zipIdx_cons, List.flatMap_cons, List.flatMap_cons, ih]

theorem List.map_zipIdx {α β : Type} (l : List α) (f : α → β) (n : Nat) :
    ((l.zipIdx n).map fun e => f e.1) = l.map f := by
  induction l generalizing n with
  | nil => rfl
  | cons a l ih => rw [List.zipIdx_cons, List.map_cons, List.map_cons, ih]

/-- The names come from the types, the directive definitions and the schema, whatever their
slots. -/
theorem Document.refNames_eq (d : Document) : d.refNames =
    d.types.values.flatMap TypeDefinition.refNames ++
      d.directives.values.flatMap (fun v => v.arguments.map fun a => (false, a.type.name)) ++
        ((d.schema.map (·.operations)).getD []).map fun op => (false, op.type.name) := by
  have htype : ∀ (t : TypeDefinition) (i : Nat),
      (t.refs.map fun e => (RefPath.type i e.1, e.2)).map
        (fun e => (e.1.isInterface, e.2.name)) = t.refNames := by
    intro t i
    rw [List.map_map, TypeDefinition.refNames]
    refine List.map_congr_left fun ⟨p, r⟩ _ => ?_
    cases p <;> rfl
  have hdirective : ∀ (v : DirectiveDefinition) (i : Nat),
      (v.arguments.zipIdx.map fun e => (RefPath.directiveArgument i e.2, e.1.type)).map
        (fun e => (e.1.isInterface, e.2.name)) = v.arguments.map fun a => (false, a.type.name) := by
    intro v i
    rw [List.map_map]
    exact List.map_zipIdx v.arguments (fun a => (false, a.type.name)) 0
  have hschema : ∀ ops : List RootOperation,
      (ops.zipIdx.map fun e => (RefPath.rootOperation e.2, e.1.type)).map
        (fun e => (e.1.isInterface, e.2.name)) = ops.map fun op => (false, op.type.name) := by
    intro ops
    rw [List.map_map]
    exact List.map_zipIdx ops (fun op => (false, op.type.name)) 0
  rw [refNames, refs, List.map_append, List.map_append, List.map_flatMap, List.map_flatMap, hschema]
  simp only [htype, hdirective, List.flatMap_zipIdx]
  rw [List.flatMap_zipIdx d.directives.values fun v =>
    v.arguments.map fun a => (false, a.type.name)]

/-! ### Fields in another order -/

/-- The same body, with its fields or input fields maybe in another order. -/
inductive TypeBody.Shuffled : TypeBody → TypeBody → Prop
  | same (b : TypeBody) : Shuffled b b
  | object {a b : FieldSet} (hi : a.interfaces = b.interfaces)
      (hf : a.fields.entries.Perm b.fields.entries) : Shuffled (.object a) (.object b)
  | interface {a b : FieldSet} (hi : a.interfaces = b.interfaces)
      (hf : a.fields.entries.Perm b.fields.entries) : Shuffled (.interface a) (.interface b)
  | input {fs gs : Table InputValue} (hf : fs.entries.Perm gs.entries) :
      Shuffled (.input fs) (.input gs)

def TypeDefinition.Shuffled (t u : TypeDefinition) : Prop :=
  t.body.Shuffled u.body ∧ u = { t with body := u.body }

theorem FieldSet.sorted_of_perm {a b : FieldSet} (hi : a.interfaces = b.interfaces)
    (hf : a.fields.entries.Perm b.fields.entries) (ρ : Relabeling) :
    (a.relabel ρ).sorted = (b.relabel ρ).sorted := by
  rw [sorted, sorted, relabel, relabel, hi, Table.sorted_of_perm (Table.perm_map _ hf)]

theorem TypeBody.Shuffled.sorted_eq {a b : TypeBody} (h : a.Shuffled b) (ρ : Relabeling) :
    (a.relabel ρ).sorted = (b.relabel ρ).sorted := by
  cases h with
  | same => rfl
  | object hi hf => exact congrArg TypeBody.object (FieldSet.sorted_of_perm hi hf ρ)
  | interface hi hf => exact congrArg TypeBody.interface (FieldSet.sorted_of_perm hi hf ρ)
  | input hf => exact congrArg TypeBody.input (Table.sorted_of_perm (Table.perm_map _ hf))

theorem TypeDefinition.Shuffled.refl (t : TypeDefinition) : t.Shuffled t := ⟨.same t.body, rfl⟩

theorem TypeDefinition.Shuffled.sorted_eq {t u : TypeDefinition} (h : t.Shuffled u)
    (ρ : Relabeling) : (t.relabel ρ).sorted = (u.relabel ρ).sorted := by
  obtain ⟨hbody, hu⟩ := h
  rw [hu, sorted, sorted, body_relabel, hbody.sorted_eq]
  rfl

/-! ### Documents -/

namespace Document

/-- The same definitions, maybe in another order. -/
structure Rearranged (d e : Document) : Prop where
  schema : d.schema = e.schema
  directives : d.directives.entries.Perm e.directives.entries
  types : d.types.entries.Perm e.types.entries

/-- The same definitions, each with its fields, in whatever order. -/
structure Shuffled (d e : Document) : Prop where
  schema : d.schema = e.schema
  directives : d.directives.entries.Perm e.directives.entries
  types : ∀ n, Option.Rel TypeDefinition.Shuffled (d.get? n) (e.get? n)

variable {d e : Document}

theorem Shuffled.normal_eq (h : d.Shuffled e) : d.normal = e.normal := by
  refine normal_eq_iff.mpr ⟨by rw [h.schema], fun n => ?_, fun n => ?_⟩
  · rw [Table.get?_of_perm h.directives]
  · have hn := h.types n
    generalize d.get? n = t, e.get? n = u at hn
    cases hn with
    | none => rfl
    | some htu => exact congrArg some (htu.sorted_eq _)

namespace Rearranged

theorem relabel (h : d.Rearranged e) (ρ : Relabeling) : (d.relabel ρ).Rearranged (e.relabel ρ) :=
  ⟨congrArg (Option.map (Schema.relabel ρ)) h.schema, h.directives.map _, h.types.map _⟩

theorem get?_eq (h : d.Rearranged e) (n : String) : d.get? n = e.get? n :=
  Table.get?_of_perm h.types n

theorem shuffled (h : d.Rearranged e) : d.Shuffled e where
  schema := h.schema
  directives := h.directives
  types n := by
    rw [h.get?_eq n]
    cases e.get? n with
    | none => exact .none
    | some t => exact .some (.refl t)

/-- The order does not count when documents are compared. -/
theorem beq (h : d.Rearranged e) : (d == e) = true :=
  (comparedBy_normal d e).mpr h.shuffled.normal_eq

theorem perm_refNames (h : d.Rearranged e) : d.refNames.Perm e.refNames := by
  rw [refNames_eq, refNames_eq, h.schema]
  have htypes := (Table.perm_values h.types).flatMap_right TypeDefinition.refNames
  have hdirectives := (Table.perm_values h.directives).flatMap_right
    fun v => v.arguments.map fun a => (false, a.type.name)
  exact (htypes.append hdirectives).append_right _

end Rearranged

theorem schema_appendAll (name : String) (ds : List Document) :
    (appendAll name ds).schema = (ds.filterMap (·.schema)).getLast? := by
  induction ds with
  | nil => rfl
  | cons d ds ih =>
    change (appendAll name ds).schema.or d.schema = _
    rw [ih, List.filterMap_cons]
    cases d.schema with
    | none => exact Option.or_none
    | some s => rw [List.getLast?_cons, Option.or_some]

theorem types_appendAll (name : String) (ds : List Document) :
    (appendAll name ds).types = (ds.map (·.types)).foldr Table.append ∅ := by
  induction ds with
  | nil => rfl
  | cons d ds ih => exact congrArg d.types.append ih

theorem directives_appendAll (name : String) (ds : List Document) :
    (appendAll name ds).directives = (ds.map (·.directives)).foldr Table.append ∅ := by
  induction ds with
  | nil => rfl
  | cons d ds ih => exact congrArg d.directives.append ih

theorem List.Perm.eq_of_length_le_one {α : Type} {as bs : List α} (h : as.Perm bs)
    (hlen : as.length ≤ 1) : as = bs := by
  match as, hlen with
  | [], _ => exact (List.nil_perm.mp h).symm
  | [a], _ => exact (List.singleton_perm.mp h)

/-- Documents with no name in common, and with one schema at most, may be put behind each other in
any order. -/
theorem rearranged_appendAll {ds es : List Document} (name : String) (h : ds.Perm es)
    (htypes : (ds.flatMap (·.types.keys)).Nodup)
    (hdirectives : (ds.flatMap (·.directives.keys)).Nodup)
    (hschema : (ds.filterMap (·.schema)).length ≤ 1) :
    (appendAll name ds).Rearranged (appendAll name es) where
  schema := by
    rw [schema_appendAll, schema_appendAll,
      List.Perm.eq_of_length_le_one (h.filterMap (·.schema)) hschema]
  directives := by
    have hes : (es.flatMap (·.directives.keys)).Nodup :=
      (h.flatMap_right _).nodup_iff.mp hdirectives
    rw [directives_appendAll, directives_appendAll, Table.entries_foldr_append,
      Table.entries_foldr_append]
    · exact (h.map _).flatMap_right _
    · rwa [List.flatMap_map]
    · rwa [List.flatMap_map]
  types := by
    have hes : (es.flatMap (·.types.keys)).Nodup :=
      (h.flatMap_right _).nodup_iff.mp htypes
    rw [types_appendAll, types_appendAll, Table.entries_foldr_append, Table.entries_foldr_append]
    · exact (h.map _).flatMap_right _
    · rwa [List.flatMap_map]
    · rwa [List.flatMap_map]

end Document

end SchemaLang
