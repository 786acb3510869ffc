import Mathlib.Logic.Function.Basic
import SchemaLang.Proofs.Persistence

/-! Registries as stores of ordered maps. A store knows of each document only its types, as a map
together with the order of its keys, and which document is the current one. Whatever types and
documents are put into a registry, taken out of it or made the current one, it answers as a store
does, and a step leaves all documents alone but the one that it is about. -/

namespace SchemaLang

/-! ### Ordered maps -/

/-- A map, and the order in which its keys came. -/
structure OrderedMap (α : Type) where
  order : List String
  value : String → Option α

namespace OrderedMap

variable {α : Type}

def empty : OrderedMap α := ⟨[], fun _ => none⟩

/-- A key that is there keeps its place, a new one comes last. -/
def put (m : OrderedMap α) (k : String) (v : α) : OrderedMap α where
  order := if k ∈ m.order then m.order else m.order ++ [k]
  value := Function.update m.value k (some v)

/-- The other keys stay in their order. -/
def remove (m : OrderedMap α) (k : String) : OrderedMap α where
  order := m.order.filter (· ≠ k)
  value := Function.update m.value k none

end OrderedMap

namespace Table

variable {α : Type}

/-- What a table holds, without how. -/
def toMap (t : Table α) : OrderedMap α := ⟨t.keys, t.get?⟩

theorem toMap_insert (t : Table α) (k : String) (v : α) :
    (t.insert k v).toMap = t.toMap.put k v := by
  have hvalue : (t.insert k v).get? = Function.update t.get? k (some v) :=
    funext fun k' => by rw [get?_insert, Function.update_apply]
  rw [toMap, hvalue, keys_insert, OrderedMap.put]
  rfl

theorem toMap_erase (t : Table α) (k : String) : (t.erase k).toMap = t.toMap.remove k := by
  have hvalue : (t.erase k).get? = Function.update t.get? k none :=
    funext fun k' => by rw [get?_erase, Function.update_apply]
  rw [toMap, hvalue, keys_erase, OrderedMap.remove]
  rfl

end Table

/-! ### Steps -/

/-- One change of a registry. -/
inductive Edit where
  | setType (document name : String) (type : TypeDefinition)
  | deleteType (name : String)
  | setFallback (name : String)
  | activate (name : String)
  | replaceDocument (document : Document)

/-- What comes back from a change: from a deletion the type that was deleted, or what is wrong. -/
abbrev Edit.Answer := Option (Except RegistryError TypeDefinition)

namespace Registry

def edit (reg : Registry) : Edit → Edit.Answer × Registry
  | .setType document name type => (none, reg.setType document name type)
  | .deleteType name =>
    match reg.deleteType name with
    | .ok (type, reg') => (some (.ok type), reg')
    | .error e => (some (.error e), reg)
  | .setFallback name => (none, reg.setFallback name)
  | .activate name => (none, reg.activate name)
  | .replaceDocument document => (none, reg.replaceDocument document)

/-- Changes made one after the other, with all that comes back. -/
def edits (reg : Registry) : List Edit → List Edit.Answer × Registry
  | [] => ([], reg)
  | e :: es =>
    let (answer, reg') := reg.edit e
    let (answers, reg'') := reg'.edits es
    (answer :: answers, reg'')

end Registry

/-- The document that a change is about. -/
def Edit.target (reg : Registry) : Edit → Option String
  | setType document _ _ => some document
  | deleteType _ => some reg.current
  | replaceDocument document => some document.name
  | setFallback _ | activate _ => none

/-! ### Stores -/

/-- An ordered map for each document, the document that was activated, if one was, and the one that
is current while none is. -/
structure Store where
  maps : String → Option (OrderedMap TypeDefinition)
  active : Option String
  fallback : String

namespace Store

def empty (fallback : String) : Store := ⟨fun _ => none, none, fallback⟩

def current (s : Store) : String := s.active.getD s.fallback

def type? (s : Store) (document name : String) : Option TypeDefinition :=
  (s.maps document).bind (·.value name)

def setMap (s : Store) (document : String) (m : OrderedMap TypeDefinition) : Store :=
  { s with maps := Function.update s.maps document (some m) }

def edit (s : Store) : Edit → Edit.Answer × Store
  | .setType document name type =>
    (none, s.setMap document (((s.maps document).getD .empty).put name type))
  | .deleteType name =>
    match s.maps s.current with
    | none => (some (.error (.notFound s.current name)), s)
    | some m =>
      match m.value name with
      | none => (some (.error (.notFound s.current name)), s)
      | some type => (some (.ok type), s.setMap s.current (m.remove name))
  | .setFallback name => (none, { s with fallback := name })
  | .activate name => (none, { s with active := some name })
  | .replaceDocument document =>
    (none, s.setMap document.name ⟨document.types.keys, document.get?⟩)

def edits (s : Store) : List Edit → List Edit.Answer × Store
  | [] => ([], s)
  | e :: es =>
    let (answer, s') := s.edit e
    let (answers, s'') := s'.edits es
    (answer :: answers, s'')

end Store

namespace Registry

variable (reg : Registry)

/-! ### One step -/

/-- A deletion finds the type in the current document, or changes nothing. -/
theorem deleteType_cases (name : String) :
    (∃ d t, reg.document? reg.current = some d ∧ d.get? name = some t ∧
      reg.deleteType name = .ok (t,
        { reg with documents := reg.documents.insert reg.current (d.erase name) })) ∨
    ((∀ d, reg.document? reg.current = some d → d.get? name = none) ∧
      reg.deleteType name = .error (.notFound reg.current name)) := by
  unfold deleteType
  cases hd : reg.document? reg.current with
  | none => exact .inr ⟨nofun, rfl⟩
  | some d =>
    cases ht : d.get? name with
    | none =>
      refine .inr ⟨fun d' hd' => ?_, by simp [ht]⟩
      obtain rfl := Option.some.inj hd'
      exact ht
    | some t => exact .inl ⟨d, t, rfl, ht, by simp [ht]⟩

/-- What can be observed of a registry, as a store. -/
def toStore : Store := ⟨fun c => (reg.document? c).map (·.types.toMap), reg.active, reg.fallback⟩

theorem toStore_insert (c : String) (d : Document) :
    ({ reg with documents := reg.documents.insert c d } : Registry).toStore =
      reg.toStore.setMap c d.types.toMap := by
  refine congrArg (Store.mk · reg.active reg.fallback) (funext fun c' => ?_)
  rw [document?_insert, Function.update_apply]
  split <;> rfl

theorem toStore_setType (c n : String) (t : TypeDefinition) :
    (reg.setType c n t).toStore =
      reg.toStore.setMap c (((reg.toStore.maps c).getD .empty).put n t) := by
  have hmap : (reg.documentOrEmpty c).types.toMap = (reg.toStore.maps c).getD .empty := by
    change _ = ((reg.document? c).map _).getD _
    rw [documentOrEmpty]
    cases reg.document? c <;> rfl
  rw [setType_eq, toStore_insert, Table.toMap_insert, hmap]

/-- Every step answers as it does in a store, and comes to the same. -/
theorem edit_toStore (e : Edit) :
    reg.toStore.edit e = ((reg.edit e).1, (reg.edit e).2.toStore) := by
  cases e with
  | setType c n t => exact congrArg (none, ·) (reg.toStore_setType c n t).symm
  | setFallback c => rfl
  | activate c => rfl
  | replaceDocument d => exact congrArg (none, ·) (reg.toStore_insert d.name d).symm
  | deleteType n =>
    have hmaps : reg.toStore.maps reg.toStore.current =
        (reg.document? reg.current).map (·.types.toMap) := rfl
    rw [Store.edit, edit, hmaps]
    obtain ⟨d, t, hd, ht, hdelete⟩ | ⟨hnone, hdelete⟩ := reg.deleteType_cases n
    · rw [hd, hdelete]
      have hvalue : d.types.toMap.value n = some t := ht
      simp only [Option.map_some, hvalue]
      rw [toStore_insert, Document.erase, Table.toMap_erase]
      rfl
    · rw [hdelete]
      cases hd : reg.document? reg.current with
      | none => rfl
      | some d =>
        have hvalue : d.types.toMap.value n = none := hnone d hd
        simp only [Option.map_some, hvalue]
        rfl

/-! ### All steps -/

theorem edits_toStore (es : List Edit) :
    reg.toStore.edits es = ((reg.edits es).1, (reg.edits es).2.toStore) := by
  induction es generalizing reg with
  | nil => rfl
  | cons e es ih =>
    rw [Store.edits, edit_toStore]
    dsimp only
    rw [ih]
    rfl

/-- What can be asked of a registry, answered from a store. -/
structure Observed (store : Store) : Prop where
  type? : ∀ document name, reg.type? document name = store.type? document name
  current : reg.current = store.current
  order : ∀ document, (reg.document? document).map (·.types.keys) =
    (store.maps document).map (·.order)

theorem observed_toStore : reg.Observed reg.toStore where
  type? c n := by
    change (reg.document? c).bind _ = ((reg.document? c).map _).bind _
    cases reg.document? c <;> rfl
  current := rfl
  order c := by
    change _ = ((reg.document? c).map _).map _
    rw [Option.map_map]
    rfl

/-- What the next change does to a registry. -/
structure EditLaws : Prop where
  /-- A type that is put in takes the slot of its name, or else comes last. -/
  setType : ∀ document name type, ∃ d,
    (reg.setType document name type).document? document = some d ∧
    (∀ n, d.get? n = if n = name then some type else reg.type? document n) ∧
    d.types.keys = if name ∈ (reg.documentOrEmpty document).types.keys
      then (reg.documentOrEmpty document).types.keys
      else (reg.documentOrEmpty document).types.keys ++ [name]
  /-- A type is taken out of the current document, and the others stay in their order. -/
  deleteType : ∀ name type reg', reg.deleteType name = .ok (type, reg') →
    ∃ d d', reg.document? reg.current = some d ∧ reg'.document? reg.current = some d' ∧
      d.get? name = some type ∧ (∀ n, d'.get? n = if n = name then none else d.get? n) ∧
      d'.types.keys = d.types.keys.filter (· ≠ name)
  /-- A deletion fails exactly if there is no current document or no such type in it. -/
  fails : ∀ name, (∃ e, reg.deleteType name = .error e) ↔
    ∀ d, reg.document? reg.current = some d → d.get? name = none
  /-- The document and the name are named, and the registry stays as it is. -/
  failed : ∀ name e, reg.deleteType name = .error e →
    reg.edit (.deleteType name) = (some (.error (.notFound reg.current name)), reg)
  replaced : ∀ d : Document, (reg.replaceDocument d).document? d.name = some d
  /-- A change is about one document at most. -/
  others : ∀ (e : Edit) (document : String), e.target reg ≠ some document →
    (reg.edit e).2.document? document = reg.document? document

theorem document?_edit (e : Edit) (c : String) (h : e.target reg ≠ some c) :
    (reg.edit e).2.document? c = reg.document? c := by
  have hother : ∀ {c' : String} (d : Document), some c' ≠ some c →
      ({ reg with documents := reg.documents.insert c' d } : Registry).document? c =
        reg.document? c := by
    intro c' d hne
    rw [document?_insert, if_neg fun hc => hne (congrArg some hc.symm)]
  cases e with
  | setType c' n t => exact hother _ h
  | setFallback c' => rfl
  | activate c' => rfl
  | replaceDocument d => exact hother d h
  | deleteType n =>
    rw [edit]
    obtain ⟨d, t, -, -, hdelete⟩ | ⟨-, hdelete⟩ := reg.deleteType_cases n
    · rw [hdelete]
      exact hother _ h
    · rw [hdelete]

theorem editLaws : reg.EditLaws where
  setType c n t := by
    refine ⟨_, by rw [setType_eq, document?_insert, if_pos rfl], fun m => ?_, ?_⟩
    · rw [type?_eq]
      exact Table.get?_insert
    · exact Table.keys_insert _ n t
  deleteType n t reg' h := by
    obtain ⟨d, u, hd, hu, hdelete⟩ | ⟨-, hdelete⟩ := reg.deleteType_cases n
    · rw [hdelete] at h
      cases h
      exact ⟨d, d.erase n, hd, by rw [document?_insert, if_pos rfl], hu, fun m => Table.get?_erase,
        Table.keys_erase⟩
    · rw [hdelete] at h
      cases h
  fails n := by
    obtain ⟨d, t, hd, ht, hdelete⟩ | ⟨hnone, hdelete⟩ := reg.deleteType_cases n
    · rw [hdelete]
      refine ⟨nofun, fun h => ?_⟩
      rw [h d hd] at ht
      cases ht
    · exact ⟨fun _ => hnone, fun _ => ⟨_, hdelete⟩⟩
  failed n e h := by
    obtain ⟨d, t, hd, ht, hdelete⟩ | ⟨-, hdelete⟩ := reg.deleteType_cases n
    · rw [hdelete] at h
      cases h
    · rw [edit, hdelete]
  replaced d := by
    change ({ reg with documents := reg.documents.insert d.name d } : Registry).document? _ = _
    rw [document?_insert, if_pos rfl]
  others := reg.document?_edit

/-- Whatever is done with an empty registry, all that comes back and all that can be asked is as in
a store with the same history, and the next change is about one document at most. -/
theorem edits_refine (fallback : String) (es : List Edit) :
    let (answers, reg) := (Registry.empty fallback).edits es
    let (expected, store) := (Store.empty fallback).edits es
    answers = expected ∧ reg.Observed store ∧ reg.EditLaws := by
  have hrun : (Store.empty fallback).edits es = _ := (Registry.empty fallback).edits_toStore es
  dsimp only
  rw [hrun]
  exact ⟨rfl, observed_toStore _, editLaws _⟩

/-- What is deleted depends on which document is current. -/
example (t : TypeDefinition) :
    ((Registry.empty "D").edits
      [.setType "A" "T" t, .deleteType "T", .activate "A", .deleteType "T", .deleteType "T"]).1 =
      [none, some (.error (.notFound "D" "T")), none, some (.ok t),
        some (.error (.notFound "A" "T"))] := rfl

end Registry

end SchemaLang
