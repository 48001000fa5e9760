import BytePair.Command.Build
import BytePair.Proofs.BinaryForm
import BytePair.Proofs.Characters

/-!
# What the arguments of a build mean

* `Build.Means`: the arguments of the command as items, apart from how they are read.
  `Build.exists_means`, `Build.Means.ofArguments`: the items are what is read.
* `Build.BreaksOff`: arguments of which one is no text, and the reading comes to it
  (`Build.ofArguments_eq_notText_iff`).
-/

namespace BytePair

/-! ## Texts -/

namespace Command

variable {argument : Bytes} {text : String} {unusable : Unusable}

theorem ofText_ne_of_decode? (h : Utf8.decode? argument = none) (text : String) :
    Bytes.ofText text ≠ argument := fun htext => by
  cases h.symm.trans (Utf8.decode?_eq_some_iff.2 htext)

theorem textOf_eq_ok_iff : textOf argument = .ok text ↔ Bytes.ofText text = argument := by
  unfold textOf
  split
  · rename_i other hother
    obtain rfl := Utf8.decode?_eq_some_iff.1 hother
    exact ⟨fun h => congrArg _ (Except.ok.inj h).symm, fun h => congrArg _
      (Option.some.inj (hother.symm.trans (Utf8.decode?_eq_some_iff.2 h)))⟩
  · rename_i hnone
    exact iff_of_false nofun (ofText_ne_of_decode? hnone text)

theorem textOf_ofText (text : String) : textOf (Bytes.ofText text) = .ok text :=
  textOf_eq_ok_iff.2 rfl

theorem textOf_eq_error_iff : textOf argument = .error unusable ↔
    unusable = .notText ∧ ∀ text, Bytes.ofText text ≠ argument := by
  have hok (text : String) : textOf argument = .ok text ↔ _ := textOf_eq_ok_iff
  cases htext : textOf argument with
  | ok text => exact iff_of_false nofun fun ⟨_, h⟩ => h text ((hok text).1 htext)
  | error other =>
    have hother : other = .notText := by
      unfold textOf at htext
      split at htext
      · cases htext
      · exact (Except.error.inj htext).symm
    rw [Except.error.injEq, hother]
    refine ⟨fun h => ⟨h.symm, fun text h => ?_⟩, fun h => h.1.symm⟩
    cases htext.symm.trans ((hok text).2 h)

end Command

namespace Build

open Command (Unusable textOf textOf_eq_ok_iff textOf_ofText textOf_eq_error_iff)

/-! ## Items -/

/-- A path among the arguments, or an option with the argument behind it. -/
inductive Item where
  | path (text : String)
  | option (name value : String)

/-- The names of the options. -/
def optionNames : List String := ["--config", "--export", "--dot", "--summary"]

namespace Item

def spelled : Item → List String
  | path text => [text]
  | option name value => [name, value]

/-- No path is named like an option, and a summary needs a level. -/
def Valid : Item → Prop
  | path text => text ∉ optionNames
  | option name value => name ∈ ["--config", "--export", "--dot"] ∨
      name = "--summary" ∧ (Command.readLevel? value).isSome

def path? : Item → Option Path
  | path text => some ⟨text⟩
  | option _ _ => none

def config? : Item → Option Path
  | path _ => none
  | option name value => if name = "--config" then some ⟨value⟩ else none

end Item

/-- The items one after another. -/
def spell (items : List Item) : List Bytes := (items.flatMap Item.spelled).map Bytes.ofText

/-- The arguments are the items one after another, two paths among them: the output and an input. -/
structure Means (arguments : List Bytes) (items : List Item) : Prop where
  spell_eq : spell items = arguments
  valid : ∀ i ∈ items, i.Valid
  length_paths : 2 ≤ (items.filterMap Item.path?).length

/-- Behind some items, and perhaps the name of an option, there is an argument that is no text. -/
inductive BreaksOff : List Bytes → Prop
  | item {items : List Item} {bad : Bytes} {rest : List Bytes} (hvalid : ∀ i ∈ items, i.Valid)
    (hbad : ∀ text, Bytes.ofText text ≠ bad) : BreaksOff (spell items ++ bad :: rest)
  | value {items : List Item} {name : String} {bad : Bytes} {rest : List Bytes}
    (hvalid : ∀ i ∈ items, i.Valid) (hname : name ∈ optionNames)
    (hbad : ∀ text, Bytes.ofText text ≠ bad) :
    BreaksOff (spell items ++ Bytes.ofText name :: bad :: rest)

variable {name value : String} {a a' : Arguments} {arguments : List Bytes} {items : List Item}
  {takeOver : String → Arguments → Except Misconfiguration Arguments} {request : Request}

theorem spell_path (text : String) (items : List Item) :
    spell (.path text :: items) = Bytes.ofText text :: spell items := rfl

theorem spell_option (name value : String) (items : List Item) :
    spell (.option name value :: items) =
      Bytes.ofText name :: Bytes.ofText value :: spell items := rfl

theorem option?_eq_none_iff : option? name = none ↔ name ∉ optionNames := by
  unfold option? optionNames
  split <;> simp_all

theorem option?_isSome_iff : (∃ takeOver, option? name = some takeOver) ↔ name ∈ optionNames := by
  rw [← Option.ne_none_iff_exists', ne_eq, option?_eq_none_iff, Decidable.not_not]

theorem option_valid_of_takeOver (hname : option? name = some takeOver)
    (hvalue : takeOver value a = .ok a') : (Item.option name value).Valid := by
  unfold option? at hname
  split at hname
  · simp [Item.Valid]
  · simp [Item.Valid]
  · simp [Item.Valid]
  · obtain rfl := Option.some.inj hname
    cases hlevel : Command.readLevel? value with
    | none => simp [hlevel] at hvalue
    | some level => exact .inr ⟨rfl, by simp [hlevel]⟩
  · cases hname

/-- An option that is valid is taken over. -/
theorem takeOver_of_valid (h : (Item.option name value).Valid) (a : Arguments) :
    ∃ takeOver a', option? name = some takeOver ∧ takeOver value a = .ok a' ∧
      a'.paths = a.paths ∧ a'.config? = ((Item.option name value).config?).or a.config? := by
  obtain hname | ⟨rfl, hlevel⟩ := h
  · simp only [List.mem_cons, List.not_mem_nil, or_false] at hname
    obtain rfl | rfl | rfl := hname <;> exact ⟨_, _, rfl, rfl, rfl, rfl⟩
  · obtain ⟨level, hlevel⟩ := Option.isSome_iff_exists.1 hlevel
    exact ⟨_, { a with summaryLevel? := some level }, rfl, by simp only [hlevel], rfl, rfl⟩

/-! ## Reading -/

theorem exists_items_of_read (h : a.read arguments = .ok a') :
    ∃ items : List Item, spell items = arguments ∧ ∀ i ∈ items, i.Valid := by
  fun_induction Arguments.read a arguments with
  | case1 a => exact ⟨[], rfl, List.forall_mem_nil _⟩
  | case3 a argument rest text htext hname ih =>
    obtain ⟨items, rfl, hvalid⟩ := ih h
    obtain rfl := textOf_eq_ok_iff.1 htext
    exact ⟨.path text :: items, spell_path text items,
      List.forall_mem_cons.2 ⟨option?_eq_none_iff.1 hname, hvalid⟩⟩
  | case6 a argument name hname takeOver htake given rest value hvalue a'' htaken ih =>
    obtain ⟨items, rfl, hvalid⟩ := ih h
    obtain rfl := textOf_eq_ok_iff.1 hname
    obtain rfl := textOf_eq_ok_iff.1 hvalue
    exact ⟨.option name value :: items, spell_option name value items,
      List.forall_mem_cons.2 ⟨option_valid_of_takeOver htake htaken, hvalid⟩⟩
  | case2 | case4 | case5 | case7 => cases h

theorem getLast?_filterMap_cons {α β : Type} (f : α → Option β) (x : α) (xs : List α) :
    ((x :: xs).filterMap f).getLast? = (xs.filterMap f).getLast?.or (f x) := by
  cases h : f x <;> simp [h, List.getLast?_cons]

/-- Items are read one after another, whatever comes behind them. -/
theorem read_spell_append (hvalid : ∀ i ∈ items, i.Valid) (a : Arguments) :
    ∃ a' : Arguments, (∀ rest, a.read (spell items ++ rest) = a'.read rest) ∧
      a'.paths = (items.filterMap Item.path?).reverse ++ a.paths ∧
      a'.config? = (items.filterMap Item.config?).getLast?.or a.config? := by
  induction items generalizing a with
  | nil => exact ⟨a, fun _ => rfl, rfl, rfl⟩
  | cons i items ih =>
    obtain ⟨hi, hitems⟩ := List.forall_mem_cons.1 hvalid
    rw [getLast?_filterMap_cons]
    cases i with
    | path text =>
      obtain ⟨a', hread, hpaths, hconfig⟩ := ih hitems { a with paths := ⟨text⟩ :: a.paths }
      refine ⟨a', fun rest => ?_, by simp [hpaths, Item.path?], by simp [hconfig, Item.config?]⟩
      rw [spell_path, List.cons_append]
      simp only [Arguments.read, textOf_ofText, option?_eq_none_iff.2 hi, hread]
    | option name value =>
      obtain ⟨takeOver, b, hname, hvalue, hpaths₁, hconfig₁⟩ := takeOver_of_valid hi a
      obtain ⟨a', hread, hpaths, hconfig⟩ := ih hitems b
      refine ⟨a', fun rest => ?_, by rw [hpaths, hpaths₁]; rfl,
        by rw [hconfig, hconfig₁, Option.or_assoc]⟩
      rw [spell_option, List.cons_append, List.cons_append]
      simp only [Arguments.read, textOf_ofText, hname, hvalue, hread]

theorem read_spell (hvalid : ∀ i ∈ items, i.Valid) (a : Arguments) :
    ∃ a', a.read (spell items) = .ok a' ∧
      a'.paths = (items.filterMap Item.path?).reverse ++ a.paths ∧
      a'.config? = (items.filterMap Item.config?).getLast?.or a.config? := by
  obtain ⟨a', hread, hpaths, hconfig⟩ := read_spell_append hvalid a
  have hall := hread []
  rw [List.append_nil] at hall
  exact ⟨a', hall, hpaths, hconfig⟩

/-- Arguments that ask for something mean something. -/
theorem exists_means (h : Request.ofArguments arguments = .ok request) :
    ∃ items, Means arguments items := by
  obtain ⟨a, hread, hrequest⟩ := bind_eq_ok.1 h
  obtain ⟨items, rfl, hvalid⟩ := exists_items_of_read hread
  obtain ⟨a', hread', hpaths, -⟩ := read_spell hvalid {}
  obtain rfl := Except.ok.inj (hread.symm.trans hread')
  refine ⟨items, rfl, hvalid, ?_⟩
  rw [hpaths, List.append_nil, List.reverse_reverse] at hrequest
  split at hrequest
  · rename_i houtput
    simp [houtput]
  · cases hrequest

/-- What the arguments mean is what they ask for. -/
theorem Means.ofArguments (h : Means arguments items) :
    ∃ request, Request.ofArguments arguments = .ok request ∧
      request.output :: request.inputs = items.filterMap Item.path? ∧
      request.config? = (items.filterMap Item.config?).getLast? := by
  obtain ⟨a, hread, hpaths, hconfig⟩ := read_spell h.valid {}
  rw [h.spell_eq] at hread
  rw [List.append_nil] at hpaths
  match hitems : items.filterMap Item.path?, h.length_paths with
  | output :: input :: inputs, _ =>
    refine ⟨⟨output, input :: inputs, a.config?, a.jsonDirectory?, a.graph?, a.summaryLevel?⟩, ?_,
      rfl, by rw [hconfig, Option.or_none]⟩
    simp only [Request.ofArguments, hread, bind, Except.bind, hpaths, hitems, List.reverse_reverse]
    rfl

theorem breaksOff_of_read (h : a.read arguments = .error .notText) : BreaksOff arguments := by
  fun_induction Arguments.read a arguments with
  | case2 a argument rest unusable htext =>
    exact BreaksOff.item (List.forall_mem_nil Item.Valid) (textOf_eq_error_iff.1 htext).2
  | case3 a argument rest text htext hname ih =>
    obtain rfl := textOf_eq_ok_iff.1 htext
    have hpath : (Item.path text).Valid := option?_eq_none_iff.1 hname
    cases ih h with
    | item hvalid hbad =>
      exact BreaksOff.item (List.forall_mem_cons.2 ⟨hpath, hvalid⟩) hbad
    | value hvalid hoption hbad =>
      exact BreaksOff.value (List.forall_mem_cons.2 ⟨hpath, hvalid⟩) hoption hbad
  | case5 a argument name hname takeOver htake given rest unusable hgiven =>
    obtain rfl := textOf_eq_ok_iff.1 hname
    exact BreaksOff.value (List.forall_mem_nil Item.Valid) (option?_isSome_iff.1 ⟨_, htake⟩)
      (textOf_eq_error_iff.1 hgiven).2
  | case6 a argument name hname takeOver htake given rest value hvalue a'' htaken ih =>
    obtain rfl := textOf_eq_ok_iff.1 hname
    obtain rfl := textOf_eq_ok_iff.1 hvalue
    have hoption := option_valid_of_takeOver htake htaken
    cases ih h with
    | item hvalid hbad =>
      exact BreaksOff.item (List.forall_mem_cons.2 ⟨hoption, hvalid⟩) hbad
    | value hvalid hpending hbad =>
      exact BreaksOff.value (List.forall_mem_cons.2 ⟨hoption, hvalid⟩) hpending hbad
  | case1 | case4 | case7 => cases h

theorem read_of_breaksOff (h : BreaksOff arguments) (a : Arguments) :
    a.read arguments = .error .notText := by
  cases h with
  | item hvalid hbad =>
    obtain ⟨a', hread, -⟩ := read_spell_append hvalid a
    simp only [hread, Arguments.read, textOf_eq_error_iff.2 ⟨rfl, hbad⟩]
  | value hvalid hname hbad =>
    obtain ⟨a', hread, -⟩ := read_spell_append hvalid a
    obtain ⟨takeOver, hoption⟩ := option?_isSome_iff.2 hname
    simp only [hread, Arguments.read, textOf_ofText, hoption, textOf_eq_error_iff.2 ⟨rfl, hbad⟩]

/-- Reading the arguments is broken off just where it comes to one that is no text. -/
theorem ofArguments_eq_notText_iff :
    Request.ofArguments arguments = .error .notText ↔ BreaksOff arguments := by
  constructor
  · intro h
    cases hread : Arguments.read {} arguments with
    | error unusable =>
      simp only [Request.ofArguments, hread] at h
      obtain rfl := Except.error.inj h
      exact breaksOff_of_read hread
    | ok a =>
      simp only [Request.ofArguments, hread, bind, Except.bind] at h
      split at h <;> cases h
  · intro h
    simp only [Request.ofArguments, read_of_breaksOff h]
    rfl

theorem BreaksOff.not_means (h : BreaksOff arguments) (items : List Item) :
    ¬ Means arguments items := by
  intro hitems
  obtain ⟨request, hrequest, -⟩ := hitems.ofArguments
  cases hrequest.symm.trans (ofArguments_eq_notText_iff.2 h)

end Build

end BytePair
