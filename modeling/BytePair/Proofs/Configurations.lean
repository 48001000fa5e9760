import BytePair.Proofs.Parsing
import BytePair.Proofs.Places
import BytePair.Session
import Mathlib.Data.List.Forall2

/-!
# Configurations come back from JSON

A configuration that is written to a file is read from it as it was, and so is any part of it.

* `Config.Holds`: the member of an object that gives a setting its value. `Config.only`: a
  configuration on some settings, with the defaults for the others.
* `Config.ofMembers?_of_holds`: members that give settings the values of a configuration are taken
  over as they are, if no setting comes twice. `Config.allNew_of_ofMembers?`: whatever they are, no
  setting may come twice.
* `Config.Layout`: some settings as an object, in any order and with white space anywhere.
* `Config.load_written`: the result.
-/

namespace BytePair

open Json

theorem Setting.ofKey?_key (s : Setting) : ofKey? s.key = some s := by
  cases s <;> rfl

namespace Config

variable {c d d' : Config} {s : Setting} {settings given : List Setting} {v : Json.Value}
  {members : List (Literal × Json.Value)}

/-! ## Values -/

/-- All numbers have 64 bits. -/
structure InRange (c : Config) : Prop where
  minFrequency : c.minFrequency < UInt64.size
  vocabularySize : c.vocabularySize < UInt64.size
  maxTokenLength : ∀ n ∈ c.maxTokenLength, n < UInt64.size

/-- The value is a natural number in digits. -/
def IsNatural (n : Nat) (v : Json.Value) : Prop :=
  ∃ digits, v = .number ⟨false, digits, true⟩ ∧
    Decimal.value (digits.map fun d => d.toNat - '0'.toNat) = n

/-- The value is the one of a setting. -/
def Shows (c : Config) : Setting → Json.Value → Prop
  | .minFrequency => IsNatural c.minFrequency
  | .vocabularySize => IsNatural c.vocabularySize
  | .maxTokenLength => match c.maxTokenLength with
    | some n => IsNatural n
    | none => (· = .null)
  | .showProgress => (· = .bool c.showProgress)
  | .parallel => (· = .bool c.parallel)

/-- The member gives a setting its value. -/
def Holds (c : Config) (s : Setting) (m : Literal × Json.Value) : Prop :=
  m.1.decode? = some s.key ∧ c.Shows s m.2

/-- The configuration on some settings, and another one on the others. -/
def overlay (c : Config) (settings : List Setting) (d : Config) : Config where
  minFrequency := if .minFrequency ∈ settings then c.minFrequency else d.minFrequency
  vocabularySize := if .vocabularySize ∈ settings then c.vocabularySize else d.vocabularySize
  maxTokenLength := if .maxTokenLength ∈ settings then c.maxTokenLength else d.maxTokenLength
  showProgress := if .showProgress ∈ settings then c.showProgress else d.showProgress
  parallel := if .parallel ∈ settings then c.parallel else d.parallel

/-- The configuration on some settings, and the defaults on the others. -/
def only (c : Config) (settings : List Setting) : Config := c.overlay settings {}

theorem overlay_nil (c d : Config) : c.overlay [] d = d := by
  simp [overlay]

theorem overlay_cons (c : Config) (s : Setting) (settings : List Setting) (d : Config) :
    c.overlay settings (c.overlay [s] d) = c.overlay (s :: settings) d := by
  cases s <;> simp [overlay]

theorem only_all (c : Config) : c.only Setting.all = c := rfl

theorem natural?_of_isNatural {n : Nat} (h : IsNatural n v) (hn : n < UInt64.size) :
    natural? v = some n := by
  obtain ⟨digits, rfl, hvalue⟩ := h
  show Decimal.below? UInt64.size (digits.map fun d => d.toNat - '0'.toNat) = some n
  rw [Decimal.below?_eq (by decide), hvalue, if_pos hn]

/-- The value of a setting is taken over. -/
theorem assign?_of_shows (hc : c.InRange) (h : c.Shows s v) (d : Config) :
    d.assign? s v = some (c.overlay [s] d) := by
  cases s with
  | minFrequency =>
    rw [assign?, natural?_of_isNatural h hc.minFrequency]
    simp [overlay]
  | vocabularySize =>
    rw [assign?, natural?_of_isNatural h hc.vocabularySize]
    simp [overlay]
  | maxTokenLength =>
    cases hlength : c.maxTokenLength with
    | none =>
      obtain rfl : v = .null := by simpa [Shows, hlength] using h
      simp [assign?, overlay, hlength]
    | some n =>
      have hvalue : IsNatural n v := by simpa [Shows, hlength] using h
      have hnatural := natural?_of_isNatural hvalue (hc.maxTokenLength n hlength)
      obtain ⟨digits, rfl, -⟩ := hvalue
      simp [assign?, hnatural, overlay, hlength]
  | showProgress =>
    obtain rfl : v = .bool c.showProgress := h
    simp [assign?, flag?, overlay]
  | parallel =>
    obtain rfl : v = .bool c.parallel := h
    simp [assign?, flag?, overlay]

/-! ## Members -/

/-- No setting comes twice, and none was given before. -/
def AllNew (given settings : List Setting) : Prop := settings.Nodup ∧ ∀ s ∈ settings, s ∉ given

instance (given settings : List Setting) : Decidable (AllNew given settings) :=
  inferInstanceAs (Decidable (_ ∧ _))

theorem allNew_cons : AllNew given (s :: settings) ↔ s ∉ given ∧ AllNew (s :: given) settings := by
  rw [AllNew, AllNew, List.nodup_cons]
  constructor
  · rintro ⟨⟨hs, hnodup⟩, hnew⟩
    obtain ⟨hsnew, hnew⟩ := List.forall_mem_cons.1 hnew
    refine ⟨hsnew, hnodup, fun t ht hmem => ?_⟩
    rcases List.mem_cons.1 hmem with rfl | hmem
    · exact hs ht
    · exact hnew t ht hmem
  · rintro ⟨hsnew, hnodup, hnew⟩
    exact ⟨⟨fun hs => hnew s hs List.mem_cons_self, hnodup⟩,
      List.forall_mem_cons.2 ⟨hsnew, fun t ht hmem => hnew t ht (List.mem_cons_of_mem s hmem)⟩⟩

theorem allNew_nil : AllNew [] settings ↔ settings.Nodup := by
  simp [AllNew]

/-- The setting that a member of an object gives, if its key is known. -/
def settingOf? (m : Literal × Json.Value) : Option Setting := m.1.decode?.bind Setting.ofKey?

/-- Members that give settings their values are taken over, if no setting comes twice. -/
theorem ofMembers?_of_holds (hc : c.InRange) (h : List.Forall₂ c.Holds settings members)
    (given : List Setting) (d : Config) :
    ofMembers? d given members =
      if AllNew given settings then some (c.overlay settings d) else none := by
  induction h generalizing given d with
  | nil =>
    rw [ofMembers?, overlay_nil]
    exact (if_pos (by simp [AllNew])).symm
  | @cons s m settings members hm _ ih =>
    obtain ⟨hkey, hshows⟩ := hm
    rw [ofMembers?, hkey]
    simp only [Setting.ofKey?_key, assign?_of_shows hc hshows, ih, overlay_cons, allNew_cons]
    by_cases hs : s ∈ given
    · simp [hs]
    · simp [hs]

/-- Whatever is taken over, no setting comes twice. -/
theorem allNew_of_ofMembers? (h : ofMembers? d given members = some d') :
    AllNew given (members.filterMap settingOf?) := by
  fun_induction ofMembers? d given members with
  | case1 => exact ⟨List.nodup_nil, List.forall_mem_nil _⟩
  | case2 => cases h
  | case3 d given key v rest text hkey hunknown ih =>
    rw [List.filterMap_cons_none (by simp [settingOf?, hkey, hunknown])]
    exact ih h
  | case4 => cases h
  | case5 => cases h
  | case6 d given key v rest text hkey s hs hnew c hassign ih =>
    rw [List.filterMap_cons_some (b := s) (by simp [settingOf?, hkey, hs])]
    exact allNew_cons.2 ⟨hnew, ih h⟩

/-! ## Objects with settings -/

/-- The value of a setting. -/
def value (c : Config) : Setting → Json.Value
  | .minFrequency => .number ⟨false, numeral c.minFrequency, true⟩
  | .vocabularySize => .number ⟨false, numeral c.vocabularySize, true⟩
  | .maxTokenLength => match c.maxTokenLength with
    | some n => .number ⟨false, numeral n, true⟩
    | none => .null
  | .showProgress => .bool c.showProgress
  | .parallel => .bool c.parallel

theorem spells_value (c : Config) (s : Setting) :
    Spells (Bytes.ofText (c.valueText s)) (c.value s) := by
  cases s with
  | minFrequency => exact spells_numeral _
  | vocabularySize => exact spells_numeral _
  | maxTokenLength =>
    rw [valueText, value]
    cases c.maxTokenLength with
    | none => exact spells_null
    | some n => exact spells_numeral n
  | showProgress => exact spells_bool _
  | parallel => exact spells_bool _

theorem shows_value (c : Config) (s : Setting) : c.Shows s (c.value s) := by
  cases s with
  | minFrequency => exact ⟨_, rfl, value_numeral _⟩
  | vocabularySize => exact ⟨_, rfl, value_numeral _⟩
  | maxTokenLength =>
    rw [Shows, value]
    cases c.maxTokenLength with
    | none => rfl
    | some n => exact ⟨_, rfl, value_numeral n⟩
  | showProgress => rfl
  | parallel => rfl

theorem plain_key (s : Setting) : Plain (Bytes.ofText s.key) := by
  cases s <;> decide

/-- A setting as the member of an object, with white space around its key and its value. -/
structure Place where
  setting : Setting
  beforeKey : Blank
  afterKey : Blank
  beforeValue : Blank
  afterValue : Blank

/-- The member with the value of a configuration. -/
def Place.written (c : Config) (m : Place) : Written where
  beforeKey := m.beforeKey
  key := Bytes.ofText m.setting.key
  plain := plain_key m.setting
  afterKey := m.afterKey
  beforeValue := m.beforeValue
  spelling := Bytes.ofText (c.valueText m.setting)
  value := c.value m.setting
  spells := spells_value c m.setting
  afterValue := m.afterValue

/-- An object with some settings, in some order, and white space around all its parts. -/
structure Layout where
  before : Blank
  inside : Blank
  members : List Place
  behind : Blank

/-- Without white space, a member is written as usual. -/
theorem bytes_compact_written (c : Config) (s : Setting) :
    (Place.written c ⟨s, .none, .none, .none, .none⟩).bytes = Bytes.ofText (c.memberText s) := by
  have hquote : Bytes.ofText "\"" = [0x22] := rfl
  have hcolon : Bytes.ofText "\":" = [0x22, 0x3A] := rfl
  rw [memberText, Bytes.ofText_append, Bytes.ofText_append, Bytes.ofText_append, hquote, hcolon]
  simp [Written.bytes, Written.tail, Place.written, Blank.none]

theorem ofText_intercalate (texts : List String) :
    Bytes.ofText (",".intercalate texts) = [0x2C].intercalate (texts.map Bytes.ofText) := by
  have hcomma : Bytes.ofText "," = [0x2C] := rfl
  induction texts with
  | nil => rfl
  | cons text texts ih =>
    cases texts with
    | nil => simp
    | cons next texts =>
      rw [String.intercalate_cons_cons, Bytes.ofText_append, Bytes.ofText_append, ih, hcomma]
      simp [List.intercalate_cons_cons]

namespace Layout

/-- The settings in their order. -/
def listed (l : Layout) : List Setting := l.members.map (·.setting)

/-- The object with the values of a configuration. -/
def bytes (l : Layout) (c : Config) : Bytes :=
  objectBytes l.before l.inside l.behind (l.members.map (·.written c))

/-- An object without white space. -/
def compact (settings : List Setting) : Layout where
  before := .none
  inside := .none
  members := settings.map fun s => ⟨s, .none, .none, .none, .none⟩
  behind := .none

theorem listed_compact (settings : List Setting) : (compact settings).listed = settings := by
  simp [listed, compact, Function.comp_def]

theorem bytes_compact (settings : List Setting) (c : Config) :
    (compact settings).bytes c = Bytes.ofText (c.jsonOf settings) := by
  have hopen : Bytes.ofText "\x7b" = [0x7B] := rfl
  have hclose : Bytes.ofText "\x7d" = [0x7D] := rfl
  have hmembers : ((compact settings).members.map (·.written c)).map Written.bytes =
      (settings.map c.memberText).map Bytes.ofText := by
    simp [compact, bytes_compact_written]
  rw [jsonOf, Bytes.ofText_append, Bytes.ofText_append, ofText_intercalate, hopen, hclose, bytes,
    objectBytes, hmembers]
  simp [compact, Blank.none]

theorem forall₂_holds (l : Layout) (c : Config) :
    List.Forall₂ c.Holds l.listed ((l.members.map (·.written c)).map Written.member) := by
  rw [listed, List.map_map, List.forall₂_map_left_iff, List.forall₂_map_right_iff]
  exact List.forall₂_same.2 fun m _ => ⟨decode?_map_byte _, c.shows_value m.setting⟩

end Layout

/-! ## Files -/

/-- What is written to a file is read from it. -/
theorem result_load {σ : Type} (s : σ) {t t' : FileTree} {p : Path} {text : Bytes}
    (h : t.create p text = .ok t') : (load p s t').result =
      (parse? text).elim (.error (.misconfigured (.invalidFile p))) .ok := by
  simp only [load, FileTree.read_of_create h]
  cases parse? text <;> rfl

theorem parse?_of_holds {settings : List Setting} (hc : c.InRange) {text : Bytes}
    (htext : Json.parse? text = some (.object members))
    (h : List.Forall₂ c.Holds settings members) :
    parse? text = if settings.Nodup then some (c.only settings) else none := by
  rw [parse?, htext]
  show ofMembers? {} [] members = _
  rw [ofMembers?_of_holds hc h]
  exact if_congr allNew_nil rfl rfl

theorem parse?_of_not_nodup {text : Bytes} (htext : Json.parse? text = some (.object members))
    (h : ¬(members.filterMap settingOf?).Nodup) : parse? text = none := by
  rw [parse?, htext]
  show ofMembers? {} [] members = none
  rw [Option.eq_none_iff_forall_ne_some]
  exact fun d hd => h (allNew_nil.1 (allNew_of_ofMembers? hd))

/-- **Configurations come back from JSON.** A configuration that is written to a file as JSON is
read from it as it was. An object with some of its settings, in any order and with white space
anywhere, is read as the configuration on these settings and the defaults on the others, and so is
every text of such an object, however its keys are escaped. If a setting comes twice, with whatever
values and among whatever other members, the file is refused. -/
theorem load_written {σ : Type} (s : σ) (t t' : FileTree) (p : Path) (c : Config)
    (hc : c.InRange) :
    (t.create p (Bytes.ofText c.json) = .ok t' → (load p s t').result = .ok c) ∧
    (∀ l : Layout, t.create p (l.bytes c) = .ok t' → (load p s t').result =
      if l.listed.Nodup then .ok (c.only l.listed) else .error (.misconfigured (.invalidFile p))) ∧
    ∀ text members, t.create p text = .ok t' → Json.parse? text = some (.object members) →
      (∀ settings, List.Forall₂ c.Holds settings members → (load p s t').result =
        if settings.Nodup then .ok (c.only settings)
        else .error (.misconfigured (.invalidFile p))) ∧
      (¬(members.filterMap settingOf?).Nodup →
        (load p s t').result = .error (.misconfigured (.invalidFile p))) := by
  have hobject (text : Bytes) (members) (hcreate : t.create p text = .ok t')
      (htext : Json.parse? text = some (.object members)) (settings : List Setting)
      (h : List.Forall₂ c.Holds settings members) : (load p s t').result =
        if settings.Nodup then .ok (c.only settings)
        else .error (.misconfigured (.invalidFile p)) := by
    rw [result_load s hcreate, parse?_of_holds hc htext h]
    split <;> rfl
  have hlayout (l : Layout) (hcreate : t.create p (l.bytes c) = .ok t') :=
    hobject _ _ hcreate (parse?_objectBytes _ _ _ _) _ (l.forall₂_holds c)
  refine ⟨fun hcreate => ?_, hlayout, fun text members hcreate htext =>
    ⟨hobject text members hcreate htext, fun hdouble => ?_⟩⟩
  · have hall := hlayout (.compact Setting.all)
    rw [Layout.bytes_compact, Layout.listed_compact, if_pos (by decide), only_all] at hall
    exact hall hcreate
  · rw [result_load s hcreate, parse?_of_not_nodup htext hdouble]
    rfl

/-- The largest numbers, two settings out of order, and a setting given twice with other values and
another member between. -/
theorem load_written_of_limits :
    let c : Config := ⟨UInt64.size - 1, UInt64.size - 1, none, true, false⟩
    let t := FileTree.empty []
    let p : Path := ⟨"c.json"⟩
    let after (text : Bytes) := t.set ["c.json"] (.file text)
    (∀ text, t.create p text = .ok (after text)) ∧
      (load p () (after (Bytes.ofText c.json))).result = .ok c ∧
      (load p () (after ((Layout.compact [.parallel, .vocabularySize]).bytes c))).result =
        .ok { vocabularySize := UInt64.size - 1, parallel := false } ∧
      (load p () (after (Bytes.ofText
        "\x7b\"parallel\":true,\"x\":[],\"parallel\":0\x7d"))).result =
        .error (.misconfigured (.invalidFile p)) := by
  intro c t p after
  have hnames : t.Names p [] "c.json" := by
    refine ⟨?_, ?_, ?_, ?_, ?_⟩ <;> decide +kernel
  have hcreate (text : Bytes) : t.create p text = .ok (after text) :=
    FileTree.create_eq_ok_iff.2
      ⟨[], "c.json", hnames, .new (by decide +kernel) rfl, rfl, rfl⟩
  have hc : c.InRange := ⟨by decide, by decide, by simp [c]⟩
  have hload (text : Bytes) := load_written () t (after text) p c hc
  refine ⟨hcreate, (hload _).1 (hcreate _), (hload _).2.1 _ (hcreate _), ?_⟩
  exact ((hload _).2.2 _ _ (hcreate _) rfl).2 (by decide +kernel)

end Config

end BytePair
