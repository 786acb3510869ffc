import SchemaLang.Proofs.Document.Equality
import SchemaLang.Proofs.ParseAppend
import SchemaLang.Proofs.Standing
import SchemaLang.Proofs.Text.Spacing

/-! Layout does not matter. A text that writes the words of another one with other trivia between
them is read as the same document, with the same order of all its parts, and the same is found on
the way; only the places are others. References are listed by their places, but these are in the
same order as the words. -/

namespace SchemaLang

/-! ### References at other places -/

/-- References that stand at words are listed in the same order if the words keep theirs. -/
theorem Document.sites_moving {d : Document} {words ts : List Token} (hd : d.Anchored words)
    (hsub : words ⊆ ts) {f : Location → Location} (hf : Tokens.KeepsOrder f ts) :
    (d.relabel (.moving f)).sites = d.sites.map fun s => { s with location := f s.location } := by
  rw [sites, refs_relabel, sites, List.map_mergeSort (s := fun s t => s.position.le t.position),
    List.map_map, List.map_map]
  · rfl
  · intro a ha b hb
    have hword : ∀ s ∈ d.refs.map (fun e => RefSite.of e.1 e.2),
        ∃ t ∈ ts, t.location = s.location := by
      intro s hs
      obtain ⟨⟨p, r⟩, hr, rfl⟩ := List.mem_map.mp hs
      obtain ⟨t, ht, -, -, hl⟩ := hd.of_mentions (mentions_iff.mpr ⟨p, mem_refs_iff.mp hr⟩)
      exact ⟨t, hsub ht, hl⟩
    obtain ⟨t, ht, hta⟩ := hword a ha
    obtain ⟨u, hu, hub⟩ := hword b hb
    have horder := hf t ht u hu
    rw [hta, hub] at horder
    exact horder.symm

theorem Document.plain_moving (d : Document) (f : Location → Location) :
    (d.relabel (.moving f)).plain = d.plain := by
  rw [plain_eq_relabel, relabel_relabel, plain_eq_relabel]
  rfl

/-! ### Other layout -/

theorem Tokens.parse_place (ts : Tokens) (f : Location → Location) (name : String) :
    (ts.place f).parse name = (ts.parse name).place f := by
  rw [parse, place, items_place, Parsed.ofItems_place, parse]

/-- A text without broken tokens and one that writes its words with other trivia between them have
the same tokens, and they are read alike. -/
theorem parse_respaced (source source' name : String)
    (hwords : ∀ t ∈ (Tokens.ofString source).words, t.kind ≠ .error)
    (h : Spaces ((Tokens.ofString source).words.map Token.text) source') :
    let p := parse source name
    let q := parse source' name
    (Tokens.ofString source').toList.map Token.spelling =
      (Tokens.ofString source).toList.map Token.spelling ∧
    q.document.plain = p.document.plain ∧ (q.document == p.document) = true ∧
    q.aborted = p.aborted ∧
    q.sites.map (fun s => (s.path, s.name)) = p.sites.map (fun s => (s.path, s.name)) ∧
    q.diagnostics.Forall₂ (fun e d => e.severity = d.severity ∧ e.kind = d.kind ∧
      e.code = d.code ∧ e.message = d.cause.message e.location.position) p.diagnostics ∧
    ∀ o, q.document.print o = p.document.print o := by
  intro p q
  obtain ⟨f, htokens, horder⟩ := Tokens.exists_place_of_spaces hwords h
  have hq : q = p.place f := by
    change (Tokens.ofString source').parse name = _
    rw [htokens, Tokens.parse_place]
    rfl
  have hplain : q.document.plain = p.document.plain := by
    rw [hq]
    exact p.document.plain_moving f
  refine ⟨?_, hplain, Document.beq_of_plain hplain, by rw [hq]; rfl, ?_, ?_, fun o => ?_⟩
  · rw [htokens, Tokens.toList, Tokens.toList]
    simp [Tokens.place, Token.place, Token.spelling, Function.comp_def]
  · have hsites := Document.sites_moving (anchored_parse source name)
      (List.subset_append_left _ _) horder
    rw [hq, Parsed.sites, Parsed.place, hsites, List.map_map]
    rfl
  · rw [hq, Parsed.place, List.forall₂_map_left_iff]
    exact List.forall₂_same.mpr fun d _ => ⟨rfl, rfl, rfl, rfl⟩
  · rw [hq]
    exact Document.print_relabel rfl p.document o

/-- Blanks, commas, byte order marks and comments, the last of which ends with the text. -/
theorem parse_respaced_union :
    let source := "union U=A"
    let source' := "\uFEFFunion# a union\nU\t=,A\r\n# end"
    Spaces ((Tokens.ofString source).words.map Token.text) source' ∧
      (parse source' "D").document.plain = (parse source "D").document.plain ∧
      (parse source' "D").sites.map (fun s => (s.path, s.name)) =
        (parse source "D").sites.map fun s => (s.path, s.name) := by
  intro source source'
  have hwords : ∀ t ∈ (Tokens.ofString source).words, t.kind ≠ .error := by decide +kernel
  have htexts : (Tokens.ofString source).words.map Token.text = ["union", "U", "=", "A"] := by
    decide +kernel
  have hcomment : IsTrivia "# a union\n".toList :=
    .comment (by decide : '\n' ∉ " a union".toList) .nil
  have hspaces : Spaces ((Tokens.ofString source).words.map Token.text) source' := by
    rw [htexts]
    have hend : EndsText "# end".toList := .inr ⟨" end".toList, by decide, rfl⟩
    refine ⟨[byteOrderMark], _, ?_, .mark .nil,
      .cons hcomment nofun (.cons (.separator (c := '\t') rfl .nil) nofun
        (.cons (.separator (c := ',') rfl .nil) nofun
          (.cons (.separator (c := '\r') rfl (.separator (c := '\n') rfl .nil)) nofun
            (.nil hend))))⟩
    decide
  obtain ⟨-, hplain, -, -, hsites, -⟩ := parse_respaced source source' "D" hwords hspaces
  exact ⟨hspaces, hplain, hsites⟩

end SchemaLang
