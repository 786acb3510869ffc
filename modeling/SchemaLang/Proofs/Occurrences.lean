import SchemaLang.Proofs.Document.Definitions
import SchemaLang.Proofs.Document.Sites
import SchemaLang.Proofs.Passes
import SchemaLang.Proofs.Reader.Trees
import SchemaLang.Proofs.Text.Tiling

/-! The sites of a document that was read from a text, found again in the text. They are the names
of types that stand in the statements that were read, in the order in which they stand there, but
for those in statements that define again what is defined behind them, and those of fields,
arguments and interfaces that repeat. -/

namespace SchemaLang

/-! ### Definitions -/

namespace Definition

/-- What the definition defines. -/
def target : Definition → Target
  | schema _ => .schema
  | directive v => .directive v.name.value
  | type t => .type t.name.value

/-- The references of a definition. -/
def refs : Definition → List TypeRef
  | schema s => s.operations.map (·.type)
  | directive v => v.arguments.map (·.type)
  | type t => t.refs.map Prod.snd

end Definition

theorem flatMap_perm_of_forall₂ {α β γ : Type} {R : α → β → Prop} {f : α → List γ}
    {g : β → List γ} {xs : List α} {ys : List β} (h : List.Forall₂ R xs ys)
    (hperm : ∀ x y, R x y → (f x).Perm (g y)) : (xs.flatMap f).Perm (ys.flatMap g) := by
  induction h with
  | nil => exact .nil
  | cons hxy _ ih =>
    rw [List.flatMap_cons, List.flatMap_cons]
    exact (hperm _ _ hxy).append ih

theorem map_mention_of_keeps {rs : List TypeRef} {ts : List Token}
    (h : List.Forall₂ TypeRef.Keeps rs ts) : rs.map TypeRef.mention = ts.map Token.mention :=
  map_eq_of_forall₂ (fun _ _ h => h) h

theorem map_mention_arguments {args : List InputValue} {ws : List Written.Input}
    (h : KeepFirsts InputValue.Keeps Written.Input.key args ws) :
    (args.map (·.type)).map TypeRef.mention =
      ((firsts Written.Input.key ws).map (·.type)).map Token.mention := by
  rw [List.map_map, List.map_map]
  exact map_eq_of_forall₂ (fun _ _ h => h.type) h

/-- A field lists its own type first, which stands behind those of its arguments. -/
theorem Field.Keeps.perm {f : Field} {w : Written.Field} (h : f.Keeps w) :
    ((f.type :: f.arguments.map (·.type)).map TypeRef.mention).Perm
      (w.typeNames.map Token.mention) := by
  rw [Written.Field.typeNames, List.map_append, List.map_cons, map_mention_arguments h.arguments,
    h.type]
  exact (List.perm_append_singleton _ _).symm

theorem FieldSet.Keeps.perm {b : FieldSet} {is : List Token} {fs : List Written.Field}
    (h : b.Keeps is fs) : ((b.refs.map Prod.snd).map TypeRef.mention).Perm
      ((firsts (·.text) is ++ (firsts Written.Field.key fs).flatMap Written.Field.typeNames).map
        Token.mention) := by
  rw [b.map_snd_refs, List.map_append, List.map_append, map_mention_of_keeps h.interfaces,
    List.map_flatMap, List.map_flatMap]
  exact (flatMap_perm_of_forall₂ h.fields fun _ _ hf => hf.perm).append_left _

theorem TypeBody.Keeps.perm {t : TypeDefinition} {b : Written.Body} (h : t.body.Keeps b) :
    ((t.refs.map Prod.snd).map TypeRef.mention).Perm (b.typeNames.map Token.mention) := by
  rw [t.map_snd_refs]
  generalize t.body = body at h
  cases h with
  | scalar | enum vs => exact .nil
  | object h | interface h => exact h.perm
  | union h => exact .of_eq (map_mention_of_keeps h)
  | input h => exact .of_eq (map_mention_arguments h)

namespace Definition.Keeps

variable {v : Definition} {w : Written}

/-- The references of a definition are the names of types that count in its statement. -/
theorem perm (h : v.Keeps w) :
    (v.refs.map TypeRef.mention).Perm (w.typeNames.map Token.mention) := by
  cases h with
  | schema h => exact .of_eq (map_mention_of_keeps h)
  | directive _ h => exact .of_eq (map_mention_arguments h)
  | type _ h => exact h.perm

theorem target_eq (h : v.Keeps w) : v.target = w.target := by
  cases h with
  | schema _ => rfl
  | directive hn _ => exact congrArg Target.directive hn
  | type hn _ => exact congrArg Target.type hn

end Definition.Keeps

/-! ### Documents -/

/-- A value put into a table takes the place of the one of its name. -/
theorem Table.KeyedBy.values_insert_perm {α : Type} {t : Table α} {name : α → String}
    (h : t.KeyedBy name) (v : α) : (t.insert (name v) v).values.Perm
      (t.values.filter (fun u => name u ≠ name v) ++ [v]) := by
  have hdrop : ∀ es ⊆ t.entries, name v ∉ es.map Prod.fst →
      (es.map Prod.snd).filter (fun u => name u ≠ name v) = es.map Prod.snd := by
    intro es hsub hes
    refine List.filter_eq_self.mpr fun u hu => ?_
    obtain ⟨e, hm, rfl⟩ := List.mem_map.mp hu
    rw [h e (hsub hm), decide_eq_true_iff]
    exact fun heq => hes (List.mem_map.mpr ⟨e, hm, heq⟩)
  by_cases hmem : name v ∈ t.keys
  · obtain ⟨⟨k, u⟩, he, hk⟩ := List.mem_map.mp hmem
    obtain rfl : k = name v := hk
    obtain ⟨front, back, hsplit⟩ := List.append_of_mem he
    -- no other entry has the key
    have hdistinct : (t.entries.map Prod.fst).Nodup := t.distinct
    rw [hsplit, List.map_append, List.map_cons, List.nodup_middle,
      List.nodup_cons, List.mem_append, not_or] at hdistinct
    obtain ⟨⟨hfront, hback⟩, -⟩ := hdistinct
    have hput : ∀ es : List (String × α), name v ∉ es.map Prod.fst →
        (es.map fun e => (e.1, if e.1 = name v then v else e.2)) = es := by
      intro es hes
      refine (List.map_congr_left fun e hm => ?_).trans (List.map_id es)
      rw [if_neg fun heq => hes (List.mem_map.mpr ⟨e, hm, heq⟩)]
      rfl
    have hvalues : t.values.filter (fun u => name u ≠ name v) =
        front.map Prod.snd ++ back.map Prod.snd := by
      rw [Table.values, hsplit, List.map_append, List.map_cons, List.filter_append,
        List.filter_cons_of_neg, hdrop front (by simp [hsplit]) hfront,
        hdrop back (by simp [hsplit]) hback]
      simpa using h _ he
    rw [hvalues, Table.values, Table.entries_insert_of_mem hmem, hsplit, List.map_append,
      List.map_cons, hput front hfront, hput back hback, List.map_append, List.map_cons, if_pos rfl]
    exact List.perm_middle.trans (List.perm_append_singleton _ _).symm
  · rw [Table.values, Table.values, Table.entries_insert_of_not_mem hmem, List.map_append,
      hdrop t.entries (List.Subset.refl _) hmem]
    exact .refl _

namespace Document

/-- A definition is added behind those of other things. -/
theorem definitions_define_perm {d : Document} (h : d.Keyed) (v : Definition) :
    (d.define v).definitions.Perm
      (d.definitions.filter (fun u => u.target ≠ v.target) ++ [v]) := by
  have hschema : ∀ u : Definition, u.target ≠ .schema →
      (d.schema.map Definition.schema).toList.filter (fun w => w.target ≠ u.target) =
        (d.schema.map Definition.schema).toList := by
    intro u hu
    cases d.schema with
    | none => rfl
    | some s => exact List.filter_cons_of_pos (decide_eq_true hu.symm)
  cases v with
  | schema s =>
    have hrest : d.definitions.filter (fun u => u.target ≠ (Definition.schema s).target) =
        d.directives.values.map .directive ++ d.types.values.map .type := by
      cases hs : d.schema <;>
        simp [definitions, List.filter_map, Function.comp_def, hs, Definition.target]
    rw [hrest]
    exact (List.perm_append_singleton _ _).symm
  | directive v =>
    have hother : (Definition.directive v).target ≠ .schema := by simp [Definition.target]
    have hrest : d.definitions.filter (fun u => u.target ≠ (Definition.directive v).target) =
        (d.schema.map Definition.schema).toList ++
          (d.directives.values.filter fun u => u.name.value ≠ v.name.value).map .directive ++
            d.types.values.map .type := by
      rw [definitions, List.filter_append, List.filter_append, hschema (.directive v) hother]
      simp [List.filter_map, Function.comp_def, Definition.target]
    have hvalues := (h.directives.values_insert_perm v).map Definition.directive
    rw [List.map_append] at hvalues
    rw [hrest, List.append_assoc]
    refine ((hvalues.append_left _).append_right _).trans ?_
    rw [← List.append_assoc, List.append_assoc]
    exact List.perm_append_comm.append_left _
  | type t =>
    have hother : (Definition.type t).target ≠ .schema := by simp [Definition.target]
    have hrest : d.definitions.filter (fun u => u.target ≠ (Definition.type t).target) =
        (d.schema.map Definition.schema).toList ++ d.directives.values.map .directive ++
          (d.types.values.filter fun u => u.name.value ≠ t.name.value).map .type := by
      rw [definitions, List.filter_append, List.filter_append, hschema (.type t) hother]
      simp [List.filter_map, Function.comp_def, Definition.target]
    have hvalues := (h.types.values_insert_perm t).map Definition.type
    rw [List.map_append] at hvalues
    rw [hrest, List.append_assoc]
    exact hvalues.append_left _

/-- A document has the last definition of everything that is defined. -/
theorem definitions_foldl_define_perm (name : String) (vs : List Definition) :
    (vs.foldl define (.empty name)).definitions.Perm (lasts Definition.target vs) := by
  induction vs using List.reverseRecOn with
  | nil => exact .nil
  | append_singleton vs v ih =>
    rw [List.foldl_concat, lasts_concat]
    have hkeyed := (Keyed.empty name).foldl_define vs
    exact (definitions_define_perm hkeyed v).trans ((ih.filter _).append_right [v])

/-- References are listed by types, directive definitions and the schema. -/
theorem map_snd_refs (d : Document) : d.refs.map Prod.snd =
    d.types.values.flatMap (fun t => t.refs.map Prod.snd) ++
      d.directives.values.flatMap (fun v => v.arguments.map (·.type)) ++
        ((d.schema.map (·.operations)).getD []).map (·.type) := by
  have htype : ∀ e : TypeDefinition × Nat,
      (e.1.refs.map fun x => (RefPath.type e.2 x.1, x.2)).map Prod.snd = e.1.refs.map Prod.snd :=
    fun e => List.map_map
  have hdirective : ∀ e : DirectiveDefinition × Nat,
      (e.1.arguments.zipIdx.map fun a => (RefPath.directiveArgument e.2 a.2, a.1.type)).map
        Prod.snd = e.1.arguments.map (·.type) := by
    intro e
    rw [List.map_map]
    exact List.map_zipIdx e.1.arguments (·.type) 0
  rw [refs, List.map_append, List.map_append, List.map_flatMap, List.map_flatMap, List.map_map]
  refine congrArg₂ (· ++ ·) (congrArg₂ (· ++ ·) ?_ ?_)
    (List.map_zipIdx _ (fun op : RootOperation => op.type) 0)
  · rw [← List.flatMap_zipIdx d.types.values _ 0]
    exact congrArg (fun g => d.types.values.zipIdx.flatMap g) (funext htype)
  · rw [← List.flatMap_zipIdx d.directives.values _ 0]
    exact congrArg (fun g => d.directives.values.zipIdx.flatMap g) (funext hdirective)

theorem refs_perm_definitions (d : Document) :
    (d.refs.map Prod.snd).Perm (d.definitions.flatMap Definition.refs) := by
  have hschema : ((d.schema.map (·.operations)).getD []).map (·.type) =
      (d.schema.map Definition.schema).toList.flatMap Definition.refs := by
    cases d.schema with
    | none => rfl
    | some s => exact (List.append_nil _).symm
  rw [d.map_snd_refs, hschema, definitions, List.flatMap_append, List.flatMap_append,
    List.flatMap_map, List.flatMap_map]
  exact (List.perm_append_comm.append_right _).trans
    (List.perm_append_comm.trans (.of_eq (List.append_assoc _ _ _).symm))

/-- The references are the names that count in the statements that the definitions were read
from. -/
theorem mentions_perm {vs : List Definition} {ws : List Written}
    (h : List.Forall₂ Definition.Keeps vs ws) (name : String) :
    (((vs.foldl define (.empty name)).refs.map Prod.snd).map TypeRef.mention).Perm
      ((Written.surviving ws).map Token.mention) := by
  have hrefs := (refs_perm_definitions (vs.foldl define (.empty name))).trans
    ((definitions_foldl_define_perm name vs).flatMap_right Definition.refs)
  have hlasts := forall₂_lasts (fun v w (hv : Definition.Keeps v w) => hv.target_eq) h
  refine (hrefs.map _).trans ?_
  rw [Written.surviving, List.map_flatMap, List.map_flatMap]
  exact flatMap_perm_of_forall₂ hlasts fun _ _ hv => hv.perm

/-- Sites are sorted by position. So if the names that the references mention stand one behind the
other, then the sites are these names in their order. -/
theorem map_sites_of_perm {d : Document} {names : List Token}
    (hperm : ((d.refs.map Prod.snd).map TypeRef.mention).Perm (names.map Token.mention))
    (hlt : names.Pairwise fun t u => u.location.position.le t.location.position = false) :
    d.sites.map (fun s => (s.name, s.location)) = names.map Token.mention := by
  have hsites : (d.sites.map fun s => (s.name, s.location)).Perm (names.map Token.mention) := by
    refine ((List.mergeSort_perm _ _).map _).trans ?_
    rw [List.map_map] at hperm ⊢
    exact hperm
  -- names with one position are one name
  have hone : ∀ t ∈ names, ∀ u ∈ names, t.location.position.le u.location.position = true →
      u.location.position.le t.location.position = true → t = u := by
    refine List.Pairwise.forall_of_forall_of_flip (fun _ _ _ _ => rfl) (hlt.imp ?_) (hlt.imp ?_)
    · exact fun h _ hle => absurd hle (by rw [h]; nofun)
    · exact fun h hle _ => absurd hle (by rw [h]; nofun)
  have hsorted : (d.sites.map fun s => (s.name, s.location)).Pairwise fun a b =>
      a.2.position.le b.2.position = true := List.pairwise_map.mpr d.pairwise_sites
  refine hsites.eq_of_pairwise ?_ hsorted (List.pairwise_map.mpr (hlt.imp Position.le_of_lt))
  intro a b ha hb hab hba
  obtain ⟨t, ht, rfl⟩ := List.mem_map.mp (hsites.mem_iff.mp ha)
  obtain ⟨u, hu, rfl⟩ := List.mem_map.mp hb
  rw [hone t ht u hu hab hba]

end Document

end SchemaLang
