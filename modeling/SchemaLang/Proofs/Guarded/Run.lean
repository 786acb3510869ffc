import SchemaLang.Load
import SchemaLang.Proofs.Guarded.Pen
import SchemaLang.Proofs.Guarded.Reading

/-! A whole run with guards: a text is scanned by bytes and read with every slice, sum and
difference guarded, and what was read is resolved, checked and stored. If the text has fewer than
`2 ^ 31` bytes no guard fails, and the run comes to what loading the text comes to. -/

namespace SchemaLang.Registry

open Guarded

/-- What comes of a text that was read. -/
def examineParsed (reg : Registry) (context : String) (p : Parsed) : Loaded :=
  if p.aborted then ⟨p.document, p.diagnostics, true⟩
  else
    let r := reg.resolve context p.document p.sites
    ⟨r.document, p.diagnostics ++ r.diagnostics ++ reg.checkResolved r, false⟩

theorem examine_eq (reg : Registry) (context source : String) :
    reg.examine context source = reg.examineParsed context (parse source context) := rfl

/-- Loads a text: what came of it, and the registry afterwards. -/
def guardedLoad (reg : Registry) (source : String) (options : LoadOptions) :
    Guarded (Loaded × Registry) := do
  let context := options.document.getD reg.current
  let l := reg.examineParsed context (← guardedParse source context)
  return (l, if options.persistence = .onSuccess ∧ l.isOk then reg.storeTypes context l.document
    else reg)

/-- No slice, sum or difference of a run can fail, nor is a branch taken that is meant for nothing.
The tokens of a text are found by bytes, the text of each cut out of the source between two
characters; every string token can be cut at both of its ends and has the value that is read from
it; so the run has a result, that of loading the text. And no printer ever goes below the outermost
level, whatever document it prints. -/
theorem load_guarded (reg : Registry) (source : String) (options : LoadOptions)
    (h : source.utf8ByteSize < 2 ^ 31) :
    Scanner.tokens source.toList = .ok (Tokens.ofString source) ∧
      (∀ t ∈ (Tokens.ofString source).words, t.kind.isString = true →
        ∃ value, t.guardedString = .ok value ∧ t.stringValue? = some value) ∧
      reg.guardedLoad source options = .ok (reg.load source options) ∧
      ∀ (d : Document) (o : PrintOptions), d.guardedPrint o = .ok (d.print o) := by
  have hsize : Scanner.Fits source.toList := by rwa [Scanner.Fits, byteCount_toList]
  refine ⟨?_, fun t ht hk => ?_, ?_, fun d o => d.guardedPrint_eq o⟩
  · rw [Scanner.tokens_eq hsize, String.ofList_toList]
  · exact (Tokens.isCut_words _ t ht).guardedString hk
  · rw [guardedLoad, guardedParse_eq hsize, ok_bind, ← examine_eq]
    rfl

/-- A string that ends in an escape, a block string with an escaped triple quote right before its
end, and a comment at the end of the text, with characters of several bytes in all of them. -/
theorem load_guarded_strings :
    let source := "\"☃\\\"\" scalar S \"\"\"é\\\"\"\"\"\"\" scalar T #☃"
    let quoted : Token := ⟨.string, "\"☃\\\"\"", ⟨⟨1, 1⟩, ⟨0, 7⟩⟩⟩
    let block : Token := ⟨.blockString, "\"\"\"é\\\"\"\"\"\"\"", ⟨⟨1, 16⟩, ⟨17, 29⟩⟩⟩
    source.utf8ByteSize < 2 ^ 31 ∧ Scanner.tokens source.toList = .ok (Tokens.ofString source) ∧
      (∀ t ∈ [quoted, block], t ∈ (Tokens.ofString source).words ∧ t.kind.isString = true ∧
        ∃ value, t.guardedString = .ok value ∧ t.stringValue? = some value) ∧
      (default : Registry).guardedLoad source {} = .ok ((default : Registry).load source {}) := by
  intro source quoted block
  have hsize : source.utf8ByteSize < 2 ^ 31 := by decide
  obtain ⟨htokens, hstrings, hload, -⟩ := load_guarded default source {} hsize
  have hmem : ∀ t ∈ [quoted, block], t ∈ (Tokens.ofString source).words ∧
      t.kind.isString = true := by decide +kernel
  refine ⟨hsize, htokens, fun t ht => ?_, hload⟩
  obtain ⟨hword, hk⟩ := hmem t ht
  exact ⟨hword, hk, hstrings t hword hk⟩

end SchemaLang.Registry
