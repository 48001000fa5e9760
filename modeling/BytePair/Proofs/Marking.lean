import BytePair.Proofs.Characters
import BytePair.Proofs.Decoding
import BytePair.Proofs.History
import BytePair.Session.Report

/-!
# What the marker stands for

The unknown token has an entry in the table, and its text is read from there like that of any other
token. A new vocabulary has the marker in this entry; a file may have anything.

* `Text.quote_eq_iff`: what is printed like the marker is the marker.
* `Vocabulary.text_eq_unknownMarker_iff`: a token of the table reads like the marker if it has its
  bytes.
* `Corpus.Reachable.grows_fresh`: training keeps the first entry.
* `Session.MarksUniformly`: the marker stands for the unknown token and for all tokens outside the
  table, and for no other one that is not spelled like it.
* `Session.marks_uniformly_iff`: this is so as long as no file with another first entry was loaded;
  `Session.marks_other_text` is such a file.
-/

namespace BytePair

/-! ## Quoted text -/

namespace Text

theorem quoteChar_of_notMem {c : Char} (h : '\\' ∉ (quoteChar c).toList) :
    quoteChar c = c.toString := by
  unfold quoteChar at h ⊢
  split_ifs at h ⊢ <;> simp_all

theorem toList_quote (s : String) :
    (quote s).toList = '"' :: (s.toList.flatMap fun c => (quoteChar c).toList) ++ ['"'] := by
  simp [quote, String.toList_join, List.flatMap_map]

/-- A text in which nothing is escaped is the only one that is quoted like this. -/
theorem quote_eq_iff {s t : String} (h : ∀ c ∈ t.toList, quoteChar c = c.toString)
    (hbackslash : '\\' ∉ t.toList) : quote s = quote t ↔ s = t := by
  have hplain {cs : List Char} (hcs : ∀ c ∈ cs, quoteChar c = c.toString) :
      (cs.flatMap fun c => (quoteChar c).toList) = cs := by
    rw [List.flatMap_congr fun c hc => congrArg String.toList (hcs c hc)]
    simp
  refine ⟨fun hquote => ?_, congrArg quote⟩
  have hlist := congrArg String.toList hquote
  rw [toList_quote, toList_quote, List.cons_append, List.cons_append, List.cons.injEq,
    List.append_cancel_right_eq, hplain h] at hlist
  have hs : ∀ c ∈ s.toList, quoteChar c = c.toString := fun c hc =>
    quoteChar_of_notMem fun hmem =>
      hbackslash (hlist.2 ▸ List.mem_flatMap.2 ⟨c, hc, hmem⟩)
  rw [hplain hs] at hlist
  exact String.toList_inj.1 hlist.2

end Text

/-! ## The marker -/

theorem lossy_eq_unknownMarker_iff {bs : Bytes} :
    Utf8.lossy bs = unknownMarker ↔ bs = Bytes.ofText unknownMarker :=
  Utf8.lossy_eq_iff (by decide)

theorem quote_eq_quote_unknownMarker_iff {s : String} :
    Text.quote s = Text.quote unknownMarker ↔ s = unknownMarker := by
  refine Text.quote_eq_iff ?_ (by decide)
  -- along the list, since there are too many characters to try them all
  simp only [← List.forall_iff_forall_mem]
  decide +kernel

/-- A token reads like the marker if it is not in the table, or is there with the bytes of the
marker. -/
theorem Vocabulary.text_eq_unknownMarker_iff {v : Vocabulary} {id : TokenId} :
    v.text id = unknownMarker ↔ v.size ≤ id ∨ v.bytes? id = some (Bytes.ofText unknownMarker) := by
  unfold text
  cases hid : v.bytes? id with
  | none =>
    have hsize : v.size ≤ id := Array.getElem?_eq_none_iff.1 hid
    simp [hsize]
  | some bs =>
    have hlt : ¬v.size ≤ id := Nat.not_le.2 (lt_size_of_bytes? hid)
    simpa [hlt] using lossy_eq_unknownMarker_iff

/-- The first entry of a table stays in it. -/
theorem Corpus.Reachable.grows_fresh {c : Corpus} (h : c.Reachable) :
    Vocabulary.fresh.Grows c.vocabulary :=
  h.keeps (motive := fun c => Vocabulary.fresh.Grows c.vocabulary) (.refl _)
    (fun c d _ hgrows => hgrows.trans (c.vocabulary.grows_atomize d))
    fun c p _ _ hgrows => hgrows.trans (c.vocabulary.grows_addRule p)

namespace Session

variable {config : Config} {steps : List Step} {s : Session} {v : Vocabulary}

/-- The tokens that the marker is to stand for: the unknown one, and one that has its very bytes. -/
def Marked (s : Session) (id : TokenId) : Prop :=
  id = unknown ∨ ∃ v, s.vocabulary = .ok v ∧ v.bytes? id = some (Bytes.ofText unknownMarker)

/-- The marker stands for the unknown token and for what is not in the table. Among the tokens of a
text, in the list of them as in the last line, it stands for those that it is to stand for. -/
structure MarksUniformly (s : Session) : Prop where
  unknown_text : s.text unknown = unknownMarker
  outside (id : TokenId) : (∀ v, s.vocabulary = .ok v → v.size ≤ id) → s.text id = unknownMarker
  listed (text : String) (ids : Sequence) : s.tokenize text = .ok ids → ∀ id ∈ ids,
    (Text.quote (s.text id) = Text.quote unknownMarker ↔ s.Marked id) ∧
      (s.text id = unknownMarker ↔ s.Marked id)

/-- The lines that tell some tokens, with the text of each. -/
def tokenLines (shown : List (TokenId × String)) : String :=
  s!"ids: {Text.bracketed (shown.map fun x => toString x.1)}\n" ++
    s!"tokens: {Text.quoteList (shown.map Prod.snd)}\n" ++
    match shown.getLast? with
    | some (id, text) => s!"last: {text} (id: {id})\n"
    | none => "last: none\n"

theorem tokenizeReport_eq (s : Session) (text : String) :
    s.tokenizeReport text =
      (s.tokenize text).map fun ids => tokenLines (ids.map fun id => (id, s.text id)) := by
  unfold tokenizeReport
  cases s.tokenize text with
  | error e => rfl
  | ok ids =>
    have hids : (ids.map fun id => (id, s.text id)).map (fun x => toString x.1) =
        ids.map toString := by simp
    have htexts : (ids.map fun id => (id, s.text id)).map Prod.snd = ids.map s.text := by simp
    show Except.ok _ = Except.ok (tokenLines _)
    rw [tokenLines, hids, htexts, List.getLast?_map]
    cases ids.getLast? <;> rfl

theorem text_eq_unknownMarker_iff {id : TokenId} : s.text id = unknownMarker ↔
    ∀ v, s.vocabulary = .ok v → v.size ≤ id ∨ v.bytes? id = some (Bytes.ofText unknownMarker) := by
  unfold text
  cases s.vocabulary with
  | error e => simp
  | ok v => simpa using Vocabulary.text_eq_unknownMarker_iff

theorem vocabulary_of_ready (hv : s.stage = .ready v) : s.vocabulary = .ok v := by
  rw [vocabulary, hv]

/-- Only with a vocabulary that is ready there are tokens. -/
theorem ready_of_tokenize {text : String} {ids : Sequence} (h : s.tokenize text = .ok ids) :
    ∃ v, s.stage = .ready v ∧ v.encode (Bytes.ofText text) = ids := by
  cases hc : s.corpus? with
  | some c =>
    obtain ⟨e, he⟩ := tokenize_of_corpus hc text
    cases he.symm.trans h
  | none =>
    obtain ⟨v, hv⟩ := corpus?_eq_none_iff.1 hc
    exact ⟨v, hv, Except.ok.inj ((tokenize_of_ready hv text).symm.trans h)⟩

/-- If the first entry of the table is the marker, then a token of the table reads like the marker
just where it should. -/
theorem text_eq_unknownMarker_iff_marked (hv : s.vocabulary = .ok v)
    (hfirst : v.bytes? unknown = some (Bytes.ofText unknownMarker)) {id : TokenId}
    (hid : id < v.size) : s.text id = unknownMarker ↔ s.Marked id := by
  have hmarked : s.Marked id ↔ v.bytes? id = some (Bytes.ofText unknownMarker) := by
    constructor
    · rintro (rfl | ⟨w, hw, hbs⟩)
      · exact hfirst
      · obtain rfl : v = w := Except.ok.inj (hv.symm.trans hw)
        exact hbs
    · exact fun hbs => .inr ⟨v, hv, hbs⟩
  rw [hmarked, text_eq_unknownMarker_iff]
  constructor
  · exact fun h => (h v hv).resolve_left (Nat.not_le.2 hid)
  · rintro hbs w hw
    obtain rfl : v = w := Except.ok.inj (hv.symm.trans hw)
    exact .inr hbs

/-- A vocabulary is that of a corpus, or was in the file that was loaded last. -/
theorem Follows.vocabulary_origin (h : s.Follows config steps) (hv : s.vocabulary = .ok v) :
    (∃ c : Corpus, c.Reachable ∧ c.vocabulary = v) ∨
      ∃ content, s.stage = .ready v ∧ steps.findSome? Step.loaded? = some content ∧
        Vocabulary.ofBytes content = .ok v := by
  cases hs : s.stage with
  | released =>
    rw [vocabulary, hs] at hv
    cases hv
  | collecting c =>
    rw [vocabulary, hs] at hv
    have hc : c = Corpus.ofDocuments (documents steps) := h.corpus_eq c (by rw [corpus?, hs])
    exact .inl ⟨c, hc ▸ Corpus.reachable_ofDocuments _, Except.ok.inj hv⟩
  | ready w =>
    obtain rfl : w = v := Except.ok.inj ((vocabulary_of_ready hs).symm.trans hv)
    cases h.origin w hs with
    | loaded _ _ hcontent hv => exact .inr ⟨_, rfl, hcontent, hv⟩
    | trained _ _ hv => exact .inl ⟨_, (Corpus.reachable_ofDocuments _).train config, hv.symm⟩

/-- **What the marker stands for.** After any calls, whatever files were loaded, a token reads like
the marker if it is not in the table or is there with the bytes of the marker, and only then. So the
marker stands for the unknown token wherever it should, if the first entry of the table is the
marker, and only then. Nothing but a file that was loaded can bring another first entry. -/
theorem marks_uniformly_iff (config : Config) (calls : List Call) :
    let steps := history config calls
    let s := current config steps
    (∀ text, s.tokenizeReport text =
      (s.tokenize text).map fun ids => tokenLines (ids.map fun id => (id, s.text id))) ∧
    (∀ id, s.text id = unknownMarker ↔ ∀ v, s.vocabulary = .ok v →
      v.size ≤ id ∨ v.bytes? id = some (Bytes.ofText unknownMarker)) ∧
    (s.MarksUniformly ↔ ∀ v, s.vocabulary = .ok v →
      v.bytes? unknown = some (Bytes.ofText unknownMarker)) ∧
    (¬s.MarksUniformly → ∃ content v, s.stage = .ready v ∧
      steps.findSome? Step.loaded? = some content ∧ Vocabulary.ofBytes content = .ok v) := by
  intro steps s
  have h : s.Follows config steps := follows_history config calls
  have hgenuine (v : Vocabulary) (hv : s.vocabulary = .ok v) : v.Genuine := by
    obtain ⟨c, hc, rfl⟩ | ⟨content, -, -, hread⟩ := h.vocabulary_origin hv
    · exact .trained hc
    · exact .read hread
  have hiff : s.MarksUniformly ↔ ∀ v, s.vocabulary = .ok v →
      v.bytes? unknown = some (Bytes.ofText unknownMarker) := by
    constructor
    · intro hmarks v hv
      refine (text_eq_unknownMarker_iff.1 hmarks.unknown_text v hv).resolve_left ?_
      exact Nat.not_le.2 (hgenuine v hv).consistent.size_pos
    · intro hfirst
      refine ⟨?_, fun id hid => ?_, fun text ids hids id hmem => ?_⟩
      · exact text_eq_unknownMarker_iff.2 fun v hv => .inr (hfirst v hv)
      · exact text_eq_unknownMarker_iff.2 fun v hv => .inl (hid v hv)
      · obtain ⟨v, hready, rfl⟩ := ready_of_tokenize hids
        have hv := vocabulary_of_ready hready
        have hid : id < v.size :=
          (hgenuine v hv).rulesFit.lt_size_of_mem_encode (hgenuine v hv).consistent hmem
        rw [quote_eq_quote_unknownMarker_iff, and_self]
        exact text_eq_unknownMarker_iff_marked hv (hfirst v hv) hid
  refine ⟨s.tokenizeReport_eq, fun _ => text_eq_unknownMarker_iff, hiff, fun hmarks => ?_⟩
  rw [hiff] at hmarks
  simp only [not_forall] at hmarks
  obtain ⟨v, hv, hfirst⟩ := hmarks
  obtain ⟨c, hc, rfl⟩ | ⟨content, hloaded⟩ := h.vocabulary_origin hv
  · exact absurd (hc.grows_fresh.bytes? rfl) hfirst
  · exact ⟨content, v, hloaded⟩

theorem current_of_load {p : Path} {files : FileTree} {content : Bytes}
    (hread : files.read p = .ok content) (hv : Vocabulary.ofBytes content = .ok v) :
    current config (history config [⟨.load p, files⟩]) = ⟨config, .ready v⟩ := by
  have hstate := (Action.discard_eq (load p) (fresh config) files).2
  rw [load_of_read hread hv] at hstate
  exact hstate

/-- With a file that has the marker in its first entry, an unseen byte reads like the marker. -/
theorem marks_uniformly_iff_unseen :
    let v := Vocabulary.ofTable #[[60, 85, 78, 75, 62], [97]] #[]
    let files : FileTree :=
      { workingDirectory := ["w"]
        entries := [(["w"], .directory), (["w", "v"], .file v.toBytes)] }
    let s := current {} (history {} [⟨.load ⟨"v"⟩, files⟩])
    s = ⟨{}, .ready v⟩ ∧ s.MarksUniformly ∧
      s.tokenizeReport "ab" =
        .ok "ids: [1, 0]\ntokens: [\"a\", \"<UNK>\"]\nlast: <UNK> (id: 0)\n" := by
  intro v files s
  have hread : files.read ⟨"v"⟩ = .ok v.toBytes := by decide +kernel
  have hs : s = ⟨{}, .ready v⟩ := current_of_load hread (by cbv)
  refine ⟨hs, (marks_uniformly_iff {} [⟨.load ⟨"v"⟩, files⟩]).2.2.1.2 fun w hw => ?_, ?_⟩
  · have hw' : s.vocabulary = .ok w := hw
    rw [hs] at hw'
    obtain rfl : v = w := Except.ok.inj hw'
    rfl
  · rw [hs]
    decide +kernel

/-- A file with another first entry is accepted, and then an unseen byte does not read like the
marker. -/
theorem marks_other_text :
    let v := Vocabulary.ofTable #[[120]] #[]
    let files : FileTree :=
      { workingDirectory := ["w"]
        entries := [(["w"], .directory), (["w", "v"], .file v.toBytes)] }
    let s := current {} (history {} [⟨.load ⟨"v"⟩, files⟩])
    s.text unknown = "x" ∧ ¬s.MarksUniformly ∧
      s.tokenizeReport "a" = .ok "ids: [0]\ntokens: [\"x\"]\nlast: x (id: 0)\n" := by
  intro v files s
  have hread : files.read ⟨"v"⟩ = .ok v.toBytes := by decide +kernel
  have hs : s = ⟨{}, .ready v⟩ := current_of_load hread (by cbv)
  have htext : s.text unknown = "x" := by
    rw [hs]
    decide +kernel
  refine ⟨htext, fun h => ?_, ?_⟩
  · rw [h.unknown_text] at htext
    exact absurd htext (by decide)
  · rw [hs]
    decide +kernel

end Session

end BytePair
