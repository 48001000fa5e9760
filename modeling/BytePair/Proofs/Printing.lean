import BytePair.Json.Printer
import Mathlib.Data.List.Basic

/-!
# What is printed can be told apart

Every part of a printed JSON text ends by itself: where it stands in front of more text, the whole
determines the part and the rest.

* `toDigits_append_inj`: a number, as long as no digit follows.
* `Json.stringText_append_inj`: a string, whatever follows.
* `Json.Document.endsByItself`: a value, by recursion over it; its items and members end by
  themselves too. So no two values are printed as the same text (`Json.Document.pretty_injective`).
-/

namespace BytePair

variable {x y : List Char}

/-! ## Numbers -/

/-- No digit comes first. -/
def StopsDigits (x : List Char) : Prop := ∀ c ∈ x.head?, c.isDigit = false

theorem stopsDigits_nil : StopsDigits [] := by simp [StopsDigits]

theorem stopsDigits_cons {c : Char} (hc : c.isDigit = false) (x : List Char) :
    StopsDigits (c :: x) := by
  simpa [StopsDigits] using hc

/-- A scan for items of a kind takes just those at the start, if another item follows. -/
theorem takeWhile_append_of_stop {α : Type} {p : α → Bool} {xs rest : List α} (hxs : ∀ x ∈ xs, p x)
    (hrest : ∀ x ∈ rest.head?, p x = false) : (xs ++ rest).takeWhile p = xs := by
  have hstop : rest.takeWhile p = [] := by
    cases rest with
    | nil => rfl
    | cons x rest => rw [List.takeWhile_cons_of_neg (by simp [hrest x rfl])]
  rw [List.takeWhile_append_of_pos hxs, hstop, List.append_nil]

theorem dropWhile_append_of_stop {α : Type} {p : α → Bool} {xs rest : List α} (hxs : ∀ x ∈ xs, p x)
    (hrest : ∀ x ∈ rest.head?, p x = false) : (xs ++ rest).dropWhile p = rest := by
  have hboth := List.takeWhile_append_dropWhile (p := p) (l := xs ++ rest)
  rw [takeWhile_append_of_stop hxs hrest] at hboth
  exact List.append_cancel_left hboth

theorem isDigit_of_mem_toDigits {n : Nat} {c : Char} (h : c ∈ Nat.toDigits 10 n) : c.isDigit :=
  Nat.isDigit_of_mem_toDigits (by decide) (Nat.le_refl 10) h

theorem toDigits_append_inj {m n : Nat} (hx : StopsDigits x) (hy : StopsDigits y)
    (h : Nat.toDigits 10 m ++ x = Nat.toDigits 10 n ++ y) : m = n ∧ x = y := by
  have heq : Nat.toDigits 10 m = Nat.toDigits 10 n := by
    rw [← takeWhile_append_of_stop (fun _ => isDigit_of_mem_toDigits) hx, h,
      takeWhile_append_of_stop (fun _ => isDigit_of_mem_toDigits) hy]
  constructor
  · rw [← Nat.ofDigitChars_ten_toDigits (n := m), heq, Nat.ofDigitChars_ten_toDigits]
  · rw [heq] at h
    exact List.append_cancel_left h

namespace Json

/-! ## Strings -/

/-- The characters that are escaped. -/
def escaped : List Char := '"' :: '\\' :: (List.range 0x20).map Char.ofNat

theorem toList_stringChar_of_notMem {c : Char} (hc : c ∉ escaped) :
    (stringChar c).toList = [c] := by
  have hcontrol : ¬c.toNat < 0x20 := fun hlt => hc <|
    List.mem_cons_of_mem _ <| List.mem_cons_of_mem _ <|
      List.mem_map.2 ⟨c.toNat, List.mem_range.2 hlt, Char.ofNat_toNat c⟩
  have hne : ∀ d ∈ escaped, c ≠ d := fun d hd hcd => hc (hcd ▸ hd)
  rw [stringChar, if_neg (hne _ (by decide)), if_neg (hne _ (by decide)),
    if_neg (hne _ (by decide)), if_neg (hne _ (by decide)), if_neg (hne _ (by decide)),
    if_neg (hne _ (by decide)), if_neg (hne _ (by decide)), if_neg hcontrol]
  simp

/-- An escape starts with a backslash, -/
theorem head?_stringChar_of_mem : ∀ c ∈ escaped, (stringChar c).toList.head? = some '\\' := by
  -- along the list, since there are too many characters to try them all
  simp only [← List.forall_iff_forall_mem]
  decide +kernel

/-- and none is the start of another one. -/
theorem eq_of_stringChar_isPrefix : ∀ c ∈ escaped, ∀ d ∈ escaped,
    (stringChar c).toList <+: (stringChar d).toList → c = d := by
  simp only [← List.forall_iff_forall_mem]
  decide +kernel

theorem head?_stringChar_append (c : Char) (x : List Char) :
    ((stringChar c).toList ++ x).head? = some (if c ∈ escaped then '\\' else c) := by
  by_cases hc : c ∈ escaped
  · rw [List.head?_append, head?_stringChar_of_mem c hc, if_pos hc]
    rfl
  · rw [toList_stringChar_of_notMem hc, if_neg hc]
    rfl

theorem stringChar_append_inj {c d : Char}
    (h : (stringChar c).toList ++ x = (stringChar d).toList ++ y) : c = d ∧ x = y := by
  have hcd : c = d := by
    have hhead := congrArg List.head? h
    rw [head?_stringChar_append, head?_stringChar_append, Option.some.injEq] at hhead
    have hbackslash : '\\' ∈ escaped := by decide
    by_cases hc : c ∈ escaped <;> by_cases hd : d ∈ escaped
    · rcases List.prefix_or_prefix_of_prefix (List.prefix_append _ x) (h ▸ List.prefix_append _ y)
        with hprefix | hprefix
      · exact eq_of_stringChar_isPrefix c hc d hd hprefix
      · exact (eq_of_stringChar_isPrefix d hd c hc hprefix).symm
    · rw [if_pos hc, if_neg hd] at hhead
      exact absurd (hhead ▸ hbackslash) hd
    · rw [if_neg hc, if_pos hd] at hhead
      exact absurd (hhead ▸ hbackslash) hc
    · rwa [if_neg hc, if_neg hd] at hhead
  subst hcd
  exact ⟨rfl, List.append_cancel_left h⟩

theorem toList_stringText (s : String) :
    (stringText s).toList = '"' :: (s.toList.flatMap fun c => (stringChar c).toList) ++ ['"'] := by
  simp [stringText, String.toList_join, List.flatMap_map]

/-- No character of a string is printed as a quote. -/
theorem stringChar_append_ne (c : Char) : (stringChar c).toList ++ x ≠ '"' :: y := by
  intro h
  have hhead := congrArg List.head? h
  rw [head?_stringChar_append, List.head?_cons, Option.some.injEq] at hhead
  split at hhead
  · cases hhead
  · rename_i hc
    exact hc (hhead ▸ by decide)

theorem flatMap_stringChar_append_inj {cs ds : List Char}
    (h : (cs.flatMap fun c => (stringChar c).toList) ++ '"' :: x =
      (ds.flatMap fun c => (stringChar c).toList) ++ '"' :: y) : cs = ds ∧ x = y := by
  induction cs generalizing ds with
  | nil =>
    cases ds with
    | nil => exact ⟨rfl, (List.cons.inj h).2⟩
    | cons d ds =>
      rw [List.flatMap_cons, List.append_assoc] at h
      exact absurd h.symm (stringChar_append_ne d)
  | cons c cs ih =>
    cases ds with
    | nil =>
      rw [List.flatMap_cons, List.append_assoc] at h
      exact absurd h (stringChar_append_ne c)
    | cons d ds =>
      rw [List.flatMap_cons, List.flatMap_cons, List.append_assoc, List.append_assoc] at h
      obtain ⟨rfl, hrest⟩ := stringChar_append_inj h
      obtain ⟨rfl, hxy⟩ := ih hrest
      exact ⟨rfl, hxy⟩

theorem stringText_append_inj {s t : String}
    (h : (stringText s).toList ++ x = (stringText t).toList ++ y) : s = t ∧ x = y := by
  simp only [toList_stringText, List.cons_append, List.append_assoc, List.nil_append,
    List.cons.injEq, true_and] at h
  obtain ⟨hst, hxy⟩ := flatMap_stringChar_append_inj h
  exact ⟨String.toList_inj.1 hst, hxy⟩

/-! ## Values -/

variable {level : Nat}

theorem toList_lineBreak (level : Nat) :
    (lineBreak level).toList = '\n' :: List.replicate (2 * level) ' ' := by
  simp [lineBreak]

theorem toList_itemsText_cons (item : Document) (items : List Document) :
    (itemsText level (item :: items)).toList = ',' :: (lineBreak level).toList ++
      (item.text level).toList ++ (itemsText level items).toList := by
  simp [itemsText]

theorem toList_membersText_cons (key : String) (value : Document)
    (members : List (String × Document)) :
    (membersText level ((key, value) :: members)).toList = ',' :: (lineBreak level).toList ++
      (stringText key).toList ++ ':' :: ' ' :: (value.text level).toList ++
      (membersText level members).toList := by
  simp [membersText]

/-- After an item there is a comma or a line break. -/
theorem stopsDigits_itemsText (items : List Document) (x : List Char) :
    StopsDigits ((itemsText level items).toList ++ '\n' :: x) := by
  cases items with
  | nil => exact stopsDigits_cons rfl x
  | cons item items =>
    rw [toList_itemsText_cons]
    exact stopsDigits_cons rfl _

theorem stopsDigits_membersText (members : List (String × Document)) (x : List Char) :
    StopsDigits ((membersText level members).toList ++ '\n' :: x) := by
  cases members with
  | nil => exact stopsDigits_cons rfl x
  | cons member members =>
    rw [toList_membersText_cons]
    exact stopsDigits_cons rfl _

namespace Document

theorem toList_text_number (n : Nat) :
    (Document.text level (.number n)).toList = Nat.toDigits 10 n := by
  simp [Document.text]

theorem toList_text_array_cons (item : Document) (items : List Document) :
    (Document.text level (.array (item :: items))).toList =
      '[' :: (lineBreak (level + 1)).toList ++ (item.text (level + 1)).toList ++
        (itemsText (level + 1) items).toList ++ (lineBreak level).toList ++ [']'] := by
  simp [Document.text]

theorem toList_text_object_cons (key : String) (value : Document)
    (members : List (String × Document)) :
    (Document.text level (.object ((key, value) :: members))).toList =
      '\x7b' :: (lineBreak (level + 1)).toList ++ (stringText key).toList ++
        ':' :: ' ' :: (value.text (level + 1)).toList ++
        (membersText (level + 1) members).toList ++ (lineBreak level).toList ++ ['\x7d'] := by
  simp [Document.text]

inductive Kind where
  | number
  | string
  | array
  | object

/-- The kind of the value that starts with a character. -/
def Kind.ofStart (c : Char) : Kind :=
  if c = '"' then .string else if c = '[' then .array else if c = '\x7b' then .object else .number

def kind : Document → Kind
  | .number _ => .number
  | .string _ => .string
  | .array _ => .array
  | .object _ => .object

/-- The first character tells the kind of a value. -/
theorem map_ofStart_text (level : Nat) (d : Document) (x : List Char) :
    ((d.text level).toList ++ x).head?.map Kind.ofStart = some d.kind := by
  cases d with
  | number n =>
    obtain ⟨c, digits, hdigits⟩ :=
      List.exists_cons_of_ne_nil (Nat.toDigits_ne_nil (n := n) (b := 10))
    have hc : c.isDigit :=
      Nat.isDigit_of_mem_toDigits (by decide) (Nat.le_refl 10) (hdigits ▸ List.mem_cons_self)
    have hne (d : Char) (hd : d.isDigit = false) : c ≠ d := fun hcd => by simp [← hcd, hc] at hd
    rw [toList_text_number, hdigits]
    simp [Kind.ofStart, hne '"' (by decide), hne '[' (by decide), hne '\x7b' (by decide), kind]
  | string s =>
    rw [Document.text, toList_stringText]
    rfl
  | array items =>
    cases items with
    | nil =>
      rw [Document.text]
      rfl
    | cons item items =>
      rw [toList_text_array_cons]
      rfl
  | object members =>
    cases members with
    | nil =>
      rw [Document.text]
      rfl
    | cons member members =>
      rw [toList_text_object_cons]
      rfl

theorem kind_eq_of_text_append {d d' : Document}
    (h : (d.text level).toList ++ x = (d'.text level).toList ++ y) : d.kind = d'.kind := by
  have hkind := map_ofStart_text level d x
  rw [h, map_ofStart_text level d' y] at hkind
  exact (Option.some.inj hkind).symm

/-- Where the value is printed in front of more text, the whole determines both. -/
def EndsByItself (d : Document) : Prop :=
  ∀ {d' : Document} {level : Nat} {x y : List Char}, StopsDigits x → StopsDigits y →
    (d.text level).toList ++ x = (d'.text level).toList ++ y → d = d' ∧ x = y

end Document

/-- The items determine themselves and what follows after a line break, -/
def ItemsEnd (items : List Document) : Prop :=
  ∀ {items' : List Document} {level : Nat} {x y : List Char},
    (itemsText level items).toList ++ '\n' :: x = (itemsText level items').toList ++ '\n' :: y →
      items = items' ∧ x = y

/-- and so do the members. -/
def MembersEnd (members : List (String × Document)) : Prop :=
  ∀ {members' : List (String × Document)} {level : Nat} {x y : List Char},
    (membersText level members).toList ++ '\n' :: x =
      (membersText level members').toList ++ '\n' :: y → members = members' ∧ x = y

variable {key : String} {item value : Document} {items : List Document}
  {members : List (String × Document)}

theorem itemsEnd_nil : ItemsEnd [] := by
  intro items' level x y h
  cases items' with
  | nil => exact ⟨rfl, (List.cons.inj h).2⟩
  | cons item' items' =>
    rw [toList_itemsText_cons] at h
    cases (List.cons.inj h).1

theorem itemsEnd_cons (hitem : item.EndsByItself) (hitems : ItemsEnd items) :
    ItemsEnd (item :: items) := by
  intro items' level x y h
  cases items' with
  | nil =>
    rw [toList_itemsText_cons] at h
    cases (List.cons.inj h).1
  | cons item' items' =>
    simp only [toList_itemsText_cons, toList_lineBreak, List.cons_append, List.append_assoc,
      List.cons.injEq, true_and, List.append_cancel_left_eq] at h
    obtain ⟨rfl, hrest⟩ := hitem (stopsDigits_itemsText _ _) (stopsDigits_itemsText _ _) h
    obtain ⟨rfl, hxy⟩ := hitems hrest
    exact ⟨rfl, hxy⟩

theorem membersEnd_nil : MembersEnd [] := by
  intro members' level x y h
  cases members' with
  | nil => exact ⟨rfl, (List.cons.inj h).2⟩
  | cons member' members' =>
    rw [toList_membersText_cons] at h
    cases (List.cons.inj h).1

theorem membersEnd_cons (hvalue : value.EndsByItself) (hmembers : MembersEnd members) :
    MembersEnd ((key, value) :: members) := by
  intro members' level x y h
  cases members' with
  | nil =>
    rw [toList_membersText_cons] at h
    cases (List.cons.inj h).1
  | cons member' members' =>
    obtain ⟨key', value'⟩ := member'
    simp only [toList_membersText_cons, toList_lineBreak, List.cons_append, List.append_assoc,
      List.cons.injEq, true_and, List.append_cancel_left_eq] at h
    obtain ⟨rfl, hcolon⟩ := stringText_append_inj h
    simp only [List.cons.injEq, true_and] at hcolon
    obtain ⟨rfl, hrest⟩ :=
      hvalue (stopsDigits_membersText _ _) (stopsDigits_membersText _ _) hcolon
    obtain ⟨rfl, hxy⟩ := hmembers hrest
    exact ⟨rfl, hxy⟩

namespace Document

theorem endsByItself_number (n : Nat) : (number n).EndsByItself := by
  intro d' level x y hx hy h
  have hkind := kind_eq_of_text_append h
  cases d' <;> cases hkind
  rw [toList_text_number, toList_text_number] at h
  obtain ⟨rfl, hxy⟩ := toDigits_append_inj hx hy h
  exact ⟨rfl, hxy⟩

theorem endsByItself_string (s : String) : (string s).EndsByItself := by
  intro d' level x y _ _ h
  have hkind := kind_eq_of_text_append h
  cases d' <;> cases hkind
  rw [Document.text, Document.text] at h
  obtain ⟨rfl, hxy⟩ := stringText_append_inj h
  exact ⟨rfl, hxy⟩

theorem endsByItself_array_nil : (array []).EndsByItself := by
  intro d' level x y _ _ h
  have hkind := kind_eq_of_text_append h
  cases d' <;> cases hkind
  rename_i items'
  cases items' with
  | nil => exact ⟨rfl, List.append_cancel_left h⟩
  | cons item' items' =>
    rw [toList_text_array_cons, Document.text, toList_lineBreak] at h
    cases (List.cons.inj (List.cons.inj h).2).1

theorem endsByItself_array_cons (hitem : item.EndsByItself) (hitems : ItemsEnd items) :
    (array (item :: items)).EndsByItself := by
  intro d' level x y _ _ h
  have hkind := kind_eq_of_text_append h
  cases d' <;> cases hkind
  rename_i items'
  cases items' with
  | nil =>
    rw [toList_text_array_cons, Document.text, toList_lineBreak] at h
    cases (List.cons.inj (List.cons.inj h).2).1
  | cons item' items' =>
    simp only [toList_text_array_cons, toList_lineBreak, List.cons_append, List.append_assoc,
      List.nil_append, List.cons.injEq, true_and, List.append_cancel_left_eq] at h
    obtain ⟨rfl, hrest⟩ := hitem (stopsDigits_itemsText _ _) (stopsDigits_itemsText _ _) h
    obtain ⟨rfl, hend⟩ := hitems hrest
    simpa using hend

theorem endsByItself_object_nil : (object []).EndsByItself := by
  intro d' level x y _ _ h
  have hkind := kind_eq_of_text_append h
  cases d' <;> cases hkind
  rename_i members'
  cases members' with
  | nil => exact ⟨rfl, List.append_cancel_left h⟩
  | cons member' members' =>
    rw [toList_text_object_cons, Document.text, toList_lineBreak] at h
    cases (List.cons.inj (List.cons.inj h).2).1

theorem endsByItself_object_cons (hvalue : value.EndsByItself) (hmembers : MembersEnd members) :
    (object ((key, value) :: members)).EndsByItself := by
  intro d' level x y _ _ h
  have hkind := kind_eq_of_text_append h
  cases d' <;> cases hkind
  rename_i members'
  cases members' with
  | nil =>
    rw [toList_text_object_cons, Document.text, toList_lineBreak] at h
    cases (List.cons.inj (List.cons.inj h).2).1
  | cons member' members' =>
    obtain ⟨key', value'⟩ := member'
    simp only [toList_text_object_cons, toList_lineBreak, List.cons_append, List.append_assoc,
      List.nil_append, List.cons.injEq, true_and, List.append_cancel_left_eq] at h
    obtain ⟨rfl, hcolon⟩ := stringText_append_inj h
    simp only [List.cons.injEq, true_and] at hcolon
    obtain ⟨rfl, hrest⟩ :=
      hvalue (stopsDigits_membersText _ _) (stopsDigits_membersText _ _) hcolon
    obtain ⟨rfl, hend⟩ := hmembers hrest
    simpa using hend

end Document

mutual

theorem Document.endsByItself : ∀ d : Document, d.EndsByItself
  | .number n => Document.endsByItself_number n
  | .string s => Document.endsByItself_string s
  | .array [] => Document.endsByItself_array_nil
  | .array (item :: items) =>
    Document.endsByItself_array_cons item.endsByItself (itemsEnd items)
  | .object [] => Document.endsByItself_object_nil
  | .object ((_, value) :: members) =>
    Document.endsByItself_object_cons value.endsByItself (membersEnd members)

theorem itemsEnd : ∀ items : List Document, ItemsEnd items
  | [] => itemsEnd_nil
  | item :: items => itemsEnd_cons item.endsByItself (itemsEnd items)

theorem membersEnd : ∀ members : List (String × Document), MembersEnd members
  | [] => membersEnd_nil
  | (_, value) :: members => membersEnd_cons value.endsByItself (membersEnd members)

end

/-- No two values are printed as the same text. -/
theorem Document.pretty_injective {d d' : Document} (h : d.pretty = d'.pretty) : d = d' :=
  (d.endsByItself stopsDigits_nil stopsDigits_nil (congrArg (·.toList ++ []) h)).1

end Json

end BytePair
