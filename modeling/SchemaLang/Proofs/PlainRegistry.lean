import SchemaLang.Proofs.Settled

/-! Registries without places. Storing types in a registry and leaving places out of it can be
done in either order, and what loading stores depends, but for places, on the document without its
places and on the types that names stand for without theirs. -/

namespace SchemaLang

namespace Registry

variable {reg : Registry} {context : String}

/-! ### Registries without places -/

/-- The registry with all places in texts left out. -/
def plain (reg : Registry) : Registry :=
  { reg with documents := reg.documents.map Document.plain }

theorem document?_plain (reg : Registry) (c : String) :
    reg.plain.document? c = (reg.document? c).map Document.plain := Table.get?_map _

theorem type?_plain (reg : Registry) (c n : String) :
    reg.plain.type? c n = (reg.type? c n).map (TypeDefinition.relabel .plain) := by
  rw [type?, document?_plain, type?]
  cases reg.document? c with
  | none => rfl
  | some d => exact (congrArg (·.get? n) d.plain_eq_relabel).trans (d.get?_relabel n)

/-- Places are not printed. -/
theorem printDocument_plain (reg : Registry) (c : String) :
    reg.plain.printDocument c = reg.printDocument c := by
  rw [printDocument, document?_plain, printDocument, Option.map_map]
  exact Option.map_congr fun d _ => d.print_plain {}

theorem documentOrEmpty_plain (reg : Registry) (c : String) :
    reg.plain.documentOrEmpty c = (reg.documentOrEmpty c).plain := by
  rw [documentOrEmpty, document?_plain, documentOrEmpty]
  cases reg.document? c <;> rfl

theorem plain_setType (reg : Registry) (c n : String) (t : TypeDefinition) :
    (reg.setType c n t).plain = reg.plain.setType c n (t.relabel .plain) := by
  have hinsert : ∀ d : Document, ({ d with types := d.types.insert n t } : Document).plain =
      { d.plain with types := d.plain.types.insert n (t.relabel .plain) } := fun d => by
    simp only [Document.plain_eq_relabel, Document.relabel, Table.map_insert]
  rw [setType_eq, setType_eq, documentOrEmpty_plain, ← hinsert]
  simp only [plain, Table.map_insert]

theorem plain_setTypes (reg : Registry) (c : String) (t : Table TypeDefinition) :
    (reg.setTypes c t.entries).plain =
      reg.plain.setTypes c (t.map (TypeDefinition.relabel .plain)).entries := by
  change _ = reg.plain.setTypes c (t.entries.map fun e => (e.1, e.2.relabel .plain))
  induction t.entries generalizing reg with
  | nil => rfl
  | cons e es ih =>
    rw [setTypes, List.foldl_cons]
    refine (ih _).trans ?_
    rw [plain_setType]
    rfl

/-! ### Types that are stored -/

theorem type?_setTypes (reg : Registry) (context c n : String) (t : Table TypeDefinition) :
    (reg.setTypes context t.entries).type? c n =
      if c = context then (t.get? n).or (reg.type? c n) else reg.type? c n := by
  split
  next hc =>
    subst hc
    rw [type?_eq, documentOrEmpty_setTypes, type?_eq]
    exact Table.get?_insertAll t.distinct _ n
  next hc => rw [type?, document?_setTypes_of_ne hc, type?]

theorem bare_of_plain {d e : Document} (h : d.relabel .plain = e.relabel .plain) :
    d.relabel .bare = e.relabel .bare := by
  have hunbind := congrArg (Document.relabel .unbind) h
  rwa [Document.relabel_relabel, Document.relabel_relabel] at hunbind

theorem settle_congr {reg reg' : Registry} {d e : Document} {n : String} {ρ : Relabeling}
    (h : (reg.meaning? context d n).map (TypeDefinition.relabel ρ) =
      (reg'.meaning? context e n).map (TypeDefinition.relabel ρ)) :
    reg.settle context d n = reg'.settle context e n := by
  have hkind : ∀ o : Option TypeDefinition, o.map (fun t => Binding.stored context t.kind) =
      (o.map (TypeDefinition.relabel ρ)).map fun t => .stored context t.kind := by
    intro o
    rw [Option.map_map]
    exact Option.map_congr fun t _ => by rw [Function.comp, TypeDefinition.kind_relabel]
  rw [settle, settle, hkind (reg.meaning? context d n), h, ← hkind]

theorem plain_settling (f : String → Option Binding) (t : Table TypeDefinition) :
    (t.map (TypeDefinition.relabel (.settling f))).map (TypeDefinition.relabel .plain) =
      (t.map (TypeDefinition.relabel .plain)).map (TypeDefinition.relabel (.settling f)) := by
  rw [Table.map_map, Table.map_map]
  simp only [Function.comp_def, TypeDefinition.relabel_relabel]
  rfl

/-- The types of a text as they are stored, but for their places. -/
theorem plain_newTypes (reg : Registry) (context source : String) :
    (reg.newTypes context source).map (TypeDefinition.relabel .plain) =
      ((parse source context).document.relabel .plain).types.map (TypeDefinition.relabel
        (.settling (reg.settle context (parse source context).document))) :=
  plain_settling _ _

end Registry

end SchemaLang
