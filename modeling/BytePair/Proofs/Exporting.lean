import BytePair.Proofs.Appending
import BytePair.Proofs.Characters
import BytePair.Proofs.Operations
import BytePair.Proofs.Paths
import BytePair.Proofs.Places
import BytePair.Proofs.Printing
import BytePair.Proofs.Reloading
import BytePair.Vocabulary.Export

/-!
# Nothing is lost in an export

The files of a JSON export show a table by the glyphs of its tokens, in the order of the glyphs, and
the rules without the tokens they lead to. This is enough to find both again.

* `Vocabulary.read_of_writeInto`: files of different names that are written into one directory are all
  there in the end.
* `Vocabulary.mem_tableMembers`: the members of the table are its real tokens, each under its own
  key.
* `Vocabulary.json_export_lossless`: vocabularies with the same export have the same tokens and
  rules.
-/

namespace BytePair

/-! ## Files in one directory -/

theorem Action.create_of_createOr {σ : Type} {ofShortage : Shortage → Error} {p : Path}
    {content : Bytes} {s : σ} {t : FileTree}
    (h : (createOr ofShortage p content s t).result = .ok ()) :
    t.create p content = .ok (createOr ofShortage p content s t).files := by
  cases hplace : t.place p with
  | error fault =>
    rw [createOr_of_fault hplace] at h
    cases h
  | ok l =>
    cases hroom : t.shortageOf l content with
    | some shortage =>
      rw [createOr_of_shortage hplace hroom] at h
      cases h
    | none =>
      have hcreate := FileTree.create_of_place hplace hroom
      rw [createOr_of_create hcreate, hcreate]

namespace Vocabulary

open BytePair.Action FileTree

variable {σ : Type} {dir : Path} {s : σ} {t : FileTree} {files : List (Bytes × Json.Document)}

/-- Writes JSON documents into files of a directory, one after another. -/
def writeInto (dir : Path) (files : List (Bytes × Json.Document)) : Action σ Unit :=
  files.forM fun (name, document) => writeJson (dir.join name) document

/-- A name that a directory can have. -/
def IsName (name : Bytes) : Prop := name ≠ [] ∧ Path.slash ∉ name

/-- What a path names has the last piece of the path as its name. -/
theorem eq_of_names_join {l : Location} {name last : Bytes} (hname : IsName name)
    (h : t.Names (dir.join name) l last) : last = name := by
  obtain ⟨-, -, -, hlast⟩ := enter_eq_ok_iff.1 h.enter
  rw [Path.steps_join hname.1 hname.2, List.getLastD_concat] at hlast
  exact hlast.symm

/-- A file stays as long as only files of other names are written. -/
theorem read_writeInto_of_notMem {p : Path} {l : Location} {name content : Bytes}
    (hp : t.Names p l name) (hfile : t.get? (l ++ [name]) = some (.file content))
    (hplain : t.refuses (l ++ [name]) .read = none) (hnames : ∀ f ∈ files, IsName f.1)
    (hnot : ∀ f ∈ files, f.1 ≠ name) (h : (writeInto dir files s t).result = .ok ()) :
    (writeInto dir files s t).files.read p = .ok content := by
  induction files generalizing s t with
  | nil => exact hp.read hfile hplain
  | cons f files ih =>
    obtain ⟨last, other⟩ := f
    obtain ⟨hlast, hothers⟩ := List.forall_mem_cons.1 hnames
    obtain ⟨hne, hnone⟩ := List.forall_mem_cons.1 hnot
    have hcons : writeInto dir ((last, other) :: files) =
        (writeJson (dir.join last) other >>= fun _ => writeInto dir files : Action σ Unit) :=
      List.forM_cons
    rw [hcons] at h ⊢
    obtain ⟨_, hcreate, hrest⟩ := result_bind_eq_ok_iff.1 h
    rw [files_bind_of_ok hcreate]
    obtain ⟨l', last', hnamed, -, -, hwritten⟩ :=
      create_eq_ok_iff.1 (create_of_createOr hcreate)
    obtain rfl := eq_of_names_join hlast hnamed
    have hplace : l' ++ [last'] ≠ [] := append_singleton_ne_nil l' last'
    have hother : l ++ [name] ≠ l' ++ [last'] := fun heq =>
      hne (List.singleton_inj.1 (List.append_inj_right' heq rfl)).symm
    have hsame := sameBut_set t hplace (.file (Bytes.ofText other.pretty))
    have hkeeps := keepsDirectories_set hplace hnamed.get?_ne (.file (Bytes.ofText other.pretty))
    have hget := (hsame.get?_eq (l ++ [name]) (by simpa using hother)).trans hfile
    have hrefuses := congrFun (hsame.refuses_eq (l ++ [name]) (by simpa using hother)) .read
    have hfiles : (writeJson (dir.join last') other s t).files =
        t.set (l' ++ [last']) (.file (Bytes.ofText other.pretty)) := hwritten
    rw [hfiles] at hrest ⊢
    exact ih (hkeeps.names hp (by simp [hget])) hget (hrefuses.trans hplain) hothers hnone hrest

/-- Files of different names are all there after they were written. -/
theorem read_of_writeInto (hnames : ∀ f ∈ files, IsName f.1)
    (hdistinct : (files.map Prod.fst).Nodup) (h : (writeInto dir files s t).result = .ok ()) :
    ∀ f ∈ files,
      (writeInto dir files s t).files.read (dir.join f.1) = .ok (Bytes.ofText f.2.pretty) := by
  induction files generalizing s t with
  | nil => exact fun f hf => absurd hf List.not_mem_nil
  | cons f files ih =>
    obtain ⟨name, document⟩ := f
    obtain ⟨hname, hothers⟩ := List.forall_mem_cons.1 hnames
    obtain ⟨hnot, hrestDistinct⟩ := List.nodup_cons.1 hdistinct
    have hcons : writeInto dir ((name, document) :: files) =
        (writeJson (dir.join name) document >>= fun _ => writeInto dir files : Action σ Unit) :=
      List.forM_cons
    rw [hcons] at h ⊢
    obtain ⟨_, hcreate, hrest⟩ := result_bind_eq_ok_iff.1 h
    rw [files_bind_of_ok hcreate]
    refine List.forall_mem_cons.2 ⟨?_, ih hothers hrestDistinct hrest⟩
    obtain ⟨l, last, hnamed, -, -, hwritten⟩ := create_eq_ok_iff.1 (create_of_createOr hcreate)
    obtain rfl := eq_of_names_join hname hnamed
    have hfiles : (writeJson (dir.join last) document s t).files =
        t.set (l ++ [last]) (.file (Bytes.ofText document.pretty)) := hwritten
    have hget : (t.set (l ++ [last]) (.file (Bytes.ofText document.pretty))).get? (l ++ [last]) =
        some (.file (Bytes.ofText document.pretty)) := by
      rw [get?_set_of_ne_nil t (append_singleton_ne_nil l last), if_pos rfl]
    rw [hfiles] at hrest ⊢
    refine read_writeInto_of_notMem (hnamed.set _) hget (refuses_set_self _ _ _ _) hothers
      (fun f hf heq => ?_) hrest
    exact hnot (List.mem_map.2 ⟨f, hf, heq⟩)

end Vocabulary

namespace Vocabulary

variable {v w : Vocabulary} {id id' : TokenId} {bs : Bytes} {name : String}

/-! ## Keys -/

theorem mem_drop_one_range {i n : Nat} : i ∈ (List.range n).drop 1 ↔ i ≠ 0 ∧ i < n := by
  rw [List.range_eq_range', List.drop_range', List.mem_range'_1]
  omega

theorem mem_knownIds : id ∈ v.knownIds ↔ id ≠ unknown ∧ ∃ bs, v.bytes? id = some bs := by
  have hsome : (∃ bs, v.bytes? id = some bs) ↔ id < v.size :=
    ⟨fun ⟨_, hbs⟩ => lt_size_of_bytes? hbs, fun h => ⟨_, Array.getElem?_eq_getElem h⟩⟩
  rw [hsome]
  exact mem_drop_one_range

theorem length_knownIds (v : Vocabulary) : v.knownIds.length = v.size - 1 := by
  rw [knownIds, List.length_drop, List.length_range]

theorem nodup_knownIds (v : Vocabulary) : v.knownIds.Nodup :=
  List.nodup_range.sublist (List.drop_sublist 1 _)

theorem exportName_of_bytes? (hid : id ≠ unknown) (hbs : v.bytes? id = some bs) :
    v.exportName id = Text.visible bs := by
  rw [exportName, hbs]
  exact if_neg hid

/-- Different tokens have different names. -/
theorem Consistent.eq_of_exportName (hw : w.Consistent)
    (hsame : ∀ id, id ≠ unknown → v.bytes? id = w.bytes? id) (hid : id ∈ v.knownIds)
    (hid' : id' ∈ w.knownIds) (heq : v.exportName id = w.exportName id') : id = id' := by
  obtain ⟨hne, bs, hbs⟩ := mem_knownIds.1 hid
  obtain ⟨hne', bs', hbs'⟩ := mem_knownIds.1 hid'
  rw [exportName_of_bytes? hne hbs, exportName_of_bytes? hne' hbs'] at heq
  obtain rfl := Text.visible_injective heq
  exact hw.eq_of_bytes? hne hne' (hsame id hne ▸ hbs) hbs'

/-- Every real token is listed under its name. -/
theorem Consistent.getElem?_namedIds (h : v.Consistent) :
    v.namedIds[name]? = some id ↔ id ∈ v.knownIds ∧ v.exportName id = name := by
  have hdistinct : (v.knownIds.map fun id => (v.exportName id, id)).Pairwise
      fun x y => x.1 ≠ y.1 := by
    refine List.pairwise_map.2 ((nodup_knownIds v).imp_of_mem fun hid hid' hne heq => hne ?_)
    exact h.eq_of_exportName (fun _ _ => rfl) hid hid' heq
  have hget := getElem?_foldl_insert hdistinct ∅ (a := name) (b := id)
  rw [List.foldl_map] at hget
  refine Iff.trans hget ?_
  simp only [List.mem_map, Prod.mk.injEq]
  constructor
  · rintro (⟨id', hid, hname, rfl⟩ | ⟨-, hnone⟩)
    · exact ⟨hid, hname⟩
    · cases hnone
  · rintro ⟨hid, hname⟩
    exact .inl ⟨id, hid, hname, rfl⟩

/-- The members that stand for the tokens. -/
def tableMembers (v : Vocabulary) : List (String × Json.Document) :=
  v.namedIds.toList.map fun (name, id) => (name, .number id)

theorem tableDocument_eq (v : Vocabulary) : v.tableDocument =
    .object [("unk", .object [("id", .number unknown), ("token", .string unknownMarker)]),
      ("vocab", .object v.tableMembers)] := rfl

/-- The members are the real tokens with their ids. -/
theorem Consistent.mem_tableMembers (h : v.Consistent) :
    (Text.visible bs, .number id) ∈ v.tableMembers ↔ id ≠ unknown ∧ v.bytes? id = some bs := by
  have hmem : (Text.visible bs, .number id) ∈ v.tableMembers ↔
      (Text.visible bs, id) ∈ v.namedIds.toList := by
    simp [tableMembers]
  rw [hmem, Std.ExtTreeMap.mem_toList_iff_getElem?_eq_some, h.getElem?_namedIds, mem_knownIds]
  constructor
  · rintro ⟨⟨hne, bs', hbs⟩, hname⟩
    rw [exportName_of_bytes? hne hbs] at hname
    exact ⟨hne, Text.visible_injective hname ▸ hbs⟩
  · rintro ⟨hne, hbs⟩
    exact ⟨⟨hne, bs, hbs⟩, exportName_of_bytes? hne hbs⟩

/-- The keys come in their order, and none comes twice. -/
theorem pairwise_tableMembers (v : Vocabulary) :
    v.tableMembers.Pairwise fun x y => compare x.1 y.1 = .lt :=
  List.pairwise_map.2 Std.ExtTreeMap.ordered_keys_toList

/-- There are as many members as real tokens. -/
theorem Consistent.length_tableMembers (h : v.Consistent) :
    v.tableMembers.length = v.size - 1 := by
  have hperm : v.namedIds.toList.Perm (v.knownIds.map fun id => (v.exportName id, id)) := by
    refine (List.perm_ext_iff_of_nodup ?_ ?_).2 fun ⟨name, id⟩ => ?_
    · refine Std.ExtTreeMap.distinct_keys_toList.imp fun {x y} hne heq => hne ?_
      rw [heq]
      exact Std.ReflCmp.compare_self
    · exact (nodup_knownIds v).map fun _ _ heq => (Prod.mk.inj heq).2
    · rw [Std.ExtTreeMap.mem_toList_iff_getElem?_eq_some, h.getElem?_namedIds]
      simp [and_comm]
  rw [tableMembers, List.length_map, hperm.length_eq, List.length_map, length_knownIds]

/-! ## What the documents tell -/

theorem Consistent.bytes?_eq_of_tableDocument (hv : v.Consistent) (hw : w.Consistent)
    (h : v.tableDocument = w.tableDocument) (hid : id ≠ unknown) : v.bytes? id = w.bytes? id := by
  have hmembers : v.tableMembers = w.tableMembers := by
    simpa [tableDocument_eq] using h
  refine Option.ext fun bs => ?_
  have hmem {u : Vocabulary} (hu : u.Consistent) :
      (Text.visible bs, .number id) ∈ u.tableMembers ↔ u.bytes? id = some bs :=
    hu.mem_tableMembers.trans (and_iff_right hid)
  rw [← hmem hv, ← hmem hw, hmembers]

theorem eq_of_map_eq_map {α β : Type} {f g : α → β} {l l' : List α} (h : l.map f = l'.map g)
    (hfg : ∀ a ∈ l, ∀ b ∈ l', f a = g b → a = b) : l = l' := by
  induction l generalizing l' with
  | nil => exact (List.map_eq_nil_iff.1 h.symm).symm
  | cons a l ih =>
    obtain ⟨b, rest, rfl, hab, hrest⟩ := List.map_eq_cons_iff.1 h.symm
    obtain rfl := hfg a List.mem_cons_self b List.mem_cons_self hab.symm
    rw [ih hrest.symm fun x hx y hy =>
      hfg x (List.mem_cons_of_mem _ hx) y (List.mem_cons_of_mem _ hy)]

/-- The names of the operands are enough to find the rule: its token has the bytes of both. -/
theorem eq_of_operand_names {r r' : Rule} (hw : w.Consistent)
    (hsame : ∀ id, id ≠ unknown → v.bytes? id = w.bytes? id) (hr : Binary.Fits v.tokens r)
    (hr' : Binary.Fits w.tokens r') (hleft : v.exportName r.pair.left = w.exportName r'.pair.left)
    (hright : v.exportName r.pair.right = w.exportName r'.pair.right) : r = r' := by
  obtain ⟨left, right, hl, hr₁, hnew⟩ := hr.concatenates
  obtain ⟨left', right', hl', hr₁', hnew'⟩ := hr'.concatenates
  have hleft := hw.eq_of_exportName hsame (mem_knownIds.2 ⟨hr.left_ne, _, hl⟩)
    (mem_knownIds.2 ⟨hr'.left_ne, _, hl'⟩) hleft
  have hright := hw.eq_of_exportName hsame (mem_knownIds.2 ⟨hr.right_ne, _, hr₁⟩)
    (mem_knownIds.2 ⟨hr'.right_ne, _, hr₁'⟩) hright
  have hbytes {id id' : TokenId} {bs bs' : Bytes} (hid : id ≠ unknown) (heq : id = id')
      (hbs : v.bytes? id = some bs) (hbs' : w.bytes? id' = some bs') : bs = bs' := by
    rw [hsame id hid, heq, hbs'] at hbs
    exact (Option.some.inj hbs).symm
  obtain rfl := hbytes hr.left_ne hleft hl hl'
  obtain rfl := hbytes hr.right_ne hright hr₁ hr₁'
  have hnew₁ : w.bytes? r.new = some (left ++ right) := hsame r.new hr.new_ne ▸ hnew
  have hnew := hw.eq_of_bytes? hr.new_ne hr'.new_ne hnew₁ hnew'
  obtain ⟨⟨l, r⟩, new⟩ := r
  obtain ⟨⟨l', r'⟩, new'⟩ := r'
  simp_all

theorem rules_eq_of_rulesDocument (hw : w.Consistent) (hvfit : v.RulesFit) (hwfit : w.RulesFit)
    (hsame : ∀ id, id ≠ unknown → v.bytes? id = w.bytes? id)
    (h : v.rulesDocument = w.rulesDocument) : v.rules = w.rules := by
  let names (v : Vocabulary) (r : Rule) : Json.Document :=
    .array [.string (v.exportName r.pair.left), .string (v.exportName r.pair.right)]
  have hnames : v.rules.toList.map (names v) = w.rules.toList.map (names w) := by
    simpa [rulesDocument] using h
  refine Array.toList_inj.1 (eq_of_map_eq_map hnames fun r hr r' hr' heq => ?_)
  obtain ⟨hleft, hright⟩ : v.exportName r.pair.left = w.exportName r'.pair.left ∧
      v.exportName r.pair.right = w.exportName r'.pair.right := by simpa [names] using heq
  exact eq_of_operand_names hw hsame (hvfit r (Array.mem_toList_iff.1 hr))
    (hwfit r' (Array.mem_toList_iff.1 hr')) hleft hright

/-! ## What the files tell -/

variable {σ : Type} {dir dir' : Path} {s s' : σ} {t t' : FileTree}

/-- After an export both files are there. -/
theorem read_of_exportJson (h : (v.exportJson dir s t).result = .ok ()) :
    (v.exportJson dir s t).files.read (dir.join "vocab.json") =
        .ok (Bytes.ofText v.tableDocument.pretty) ∧
      (v.exportJson dir s t).files.read (dir.join "merges.json") =
        .ok (Bytes.ofText v.rulesDocument.pretty) := by
  have hexport : (v.exportJson dir : Action σ Unit) =
      (Action.makeDirectories dir >>= fun _ => writeInto dir v.jsonFiles) := rfl
  rw [hexport] at h ⊢
  obtain ⟨_, hmade, hwritten⟩ := Action.result_bind_eq_ok_iff.1 h
  rw [Action.files_bind_of_ok hmade]
  have hnames : ∀ f ∈ v.jsonFiles, IsName f.1 := by
    simp only [jsonFiles, List.forall_mem_cons, IsName]
    decide
  have hread := read_of_writeInto hnames (by simp only [jsonFiles, List.map]; decide) hwritten
  obtain ⟨htable, hrest⟩ := List.forall_mem_cons.1 hread
  exact ⟨htable, (List.forall_mem_cons.1 hrest).1⟩

/-- **An export loses nothing.** The object of tokens has one member for each real token, under keys
that are all different and in order. Two vocabularies of which the exports are the same, whatever
directories they were written into, have the same real tokens and the same rules. -/
theorem json_export_lossless (hv : v.Genuine) (hw : w.Genuine) :
    (v.tableDocument = .object
        [("unk", .object [("id", .number unknown), ("token", .string unknownMarker)]),
          ("vocab", .object v.tableMembers)] ∧
      v.tableMembers.length = v.size - 1 ∧
      v.tableMembers.Pairwise (fun x y => compare x.1 y.1 = .lt) ∧
      ∀ id bs, (Text.visible bs, .number id) ∈ v.tableMembers ↔
        id ≠ unknown ∧ v.bytes? id = some bs) ∧
    ((v.exportJson dir s t).result = .ok () → (w.exportJson dir' s' t').result = .ok () →
      (v.exportJson dir s t).files.read (dir.join "vocab.json") =
        (w.exportJson dir' s' t').files.read (dir'.join "vocab.json") →
      (v.exportJson dir s t).files.read (dir.join "merges.json") =
        (w.exportJson dir' s' t').files.read (dir'.join "merges.json") →
      (∀ id, id ≠ unknown → v.bytes? id = w.bytes? id) ∧ v.rules = w.rules) := by
  refine ⟨⟨v.tableDocument_eq, hv.consistent.length_tableMembers, v.pairwise_tableMembers,
    fun id bs => hv.consistent.mem_tableMembers⟩, fun hok hok' htable hrules => ?_⟩
  obtain ⟨hread, hread'⟩ := read_of_exportJson hok
  obtain ⟨hread₁, hread₁'⟩ := read_of_exportJson hok'
  rw [hread, hread₁] at htable
  rw [hread', hread₁'] at hrules
  have htable := Json.Document.pretty_injective (Bytes.ofText_injective (Except.ok.inj htable))
  have hrules := Json.Document.pretty_injective (Bytes.ofText_injective (Except.ok.inj hrules))
  have hsame (id : TokenId) (hid : id ≠ unknown) : v.bytes? id = w.bytes? id :=
    hv.consistent.bytes?_eq_of_tableDocument hw.consistent htable hid
  exact ⟨hsame, rules_eq_of_rulesDocument hw.consistent hv.rulesFit hw.rulesFit hsame hrules⟩

/-- A trained vocabulary, and one that was read and has another text for the unknown token, which no
export shows. -/
theorem json_export_lossless_but_for_unknown :
    let v := ((Corpus.fresh.ingest [97, 98, 97, 98]).train {}).corpus.vocabulary
    let w := Vocabulary.ofTable #[[], [97], [98], [97, 98]] #[⟨⟨1, 2⟩, 3⟩]
    let t := FileTree.empty ["home"]
    let dir : Path := ⟨"here"⟩
    let dir' : Path := ⟨"up/there"⟩
    let o := v.exportJson dir () t
    let o' := w.exportJson dir' () t
    o.result = .ok () ∧ o'.result = .ok () ∧
      o.files.read (dir.join "vocab.json") = o'.files.read (dir'.join "vocab.json") ∧
      o.files.read (dir.join "merges.json") = o'.files.read (dir'.join "merges.json") ∧
      v.bytes? unknown ≠ w.bytes? unknown ∧ (∀ id, id ≠ unknown → v.bytes? id = w.bytes? id) ∧
      v.rules = w.rules := by
  intro v w t dir dir' o o'
  have hc : (Corpus.fresh.ingest [97, 98, 97, 98]).Reachable := .ingest .fresh _
  have hnaive : v = _ := congrArg (·.corpus.vocabulary) (hc.sound.train_eq {})
  have hv : v.Genuine := .trained (hc.train {})
  have hfits : ∀ r ∈ w.rules, Binary.Fits w.tokens r := by
    intro r hr
    obtain rfl : r = ⟨⟨1, 2⟩, 3⟩ := by simpa [w, ofTable] using hr
    exact ⟨by decide, by decide, by decide, [97], [98], rfl, rfl, rfl⟩
  have hw : w.Genuine := .read <| (ofBytes_eq_ok_iff w.toBytes w).2
    ⟨rfl, consistent_ofTable (by decide) (by decide), nodup_drop_one_iff.1 (by decide), hfits,
      by decide, by decide, by decide⟩
  have hresult : o.result = .ok () := by
    simp only [o, hnaive]
    decide +kernel
  have hresult' : o'.result = .ok () := by decide +kernel
  have htable : o.files.read (dir.join "vocab.json") = o'.files.read (dir'.join "vocab.json") := by
    simp only [o, hnaive]
    decide +kernel
  have hrules :
      o.files.read (dir.join "merges.json") = o'.files.read (dir'.join "merges.json") := by
    simp only [o, hnaive]
    decide +kernel
  refine ⟨hresult, hresult', htable, hrules, ?_, ?_⟩
  · rw [hnaive]
    decide +kernel
  · exact (json_export_lossless hv hw).2 hresult hresult' htable hrules

end Vocabulary

end BytePair
