import BytePair.Token

/-!
# Text for a terminal

A text may hold sequences that a terminal takes as commands. `Terminal.plain` leaves them out, and
control characters too, for a reader that is no terminal. The sequences are those of ECMA-48:

* escape sequences, and control sequences such as the ones that set colors;
* strings (device control strings, operating system commands and a few more), which are left out
  with their contents.

Of the control characters only white space is kept. White space inside an escape sequence or a
control sequence is kept too, and suspends the sequence: what follows is text, up to the next
control character, behind which the sequence goes on.
-/

namespace BytePair.Terminal

/-- What a reader is in the middle of. -/
inductive Mode where
  | text
  /-- Behind the escape character. -/
  | escape
  /-- In an escape sequence of more than one character. -/
  | longEscape
  | controlSequence
  /-- At the start of a device control string, of which no more than the first character is
  read. -/
  | deviceStart
  /-- In the parameters of a device control string. -/
  | deviceParameters
  /-- Behind the parameters of a device control string. -/
  | deviceIntermediates
  /-- In the contents of a device control string, or in a string of another kind. -/
  | string
  | systemCommand
  deriving DecidableEq, Repr

/-- Whether the character is one of those from `first` to `last`. -/
def isWithin (first last c : Char) : Bool := first ≤ c && c ≤ last

/-- Whether the character is a control character that counts as white space. -/
def isWhite (c : Char) : Bool := c = '\t' || c = '\n' || c = '\x0c' || c = '\r'

/-- Whether the character may stand in a plain text. -/
def isPlain (c : Char) : Bool := (' ' ≤ c && c ≠ '\x7f') || isWhite c

/-- Whether the character ends a string: one of the bytes that it is written as is the string
terminator. -/
def endsString (c : Char) : Bool := (Bytes.ofText c.toString).contains 0x9C

namespace Mode

/-- Whether the character is kept. -/
def keeps (m : Mode) (c : Char) : Bool :=
  match m with
  | text => isPlain c
  | escape | longEscape | controlSequence => isWhite c
  | _ => false

/-- The mode behind a character that is not kept. Whatever the mode is, CAN and SUB end a sequence
and the escape character starts one. -/
def next (m : Mode) (c : Char) : Mode :=
  if c = '\x18' || c = '\x1a' then text
  else if c = '\x1b' then escape
  else match m with
    | text => text
    | escape =>
      if isWithin ' ' '/' c then longEscape
      else if c = '[' then controlSequence
      else if c = ']' then systemCommand
      else if c = 'P' then deviceStart
      else if c = 'X' || c = '^' || c = '_' then string
      else if isWithin '0' '~' c then text
      else escape
    | longEscape => if isWithin '0' '~' c then text else longEscape
    | controlSequence => if isWithin '@' '~' c then text else controlSequence
    | deviceStart =>
      if isWithin '@' '~' c then string
      else if isWithin '0' '?' c then deviceParameters
      else if isWithin ' ' '/' c then deviceIntermediates
      else deviceStart
    | deviceParameters =>
      if isWithin '<' '~' c then string
      else if isWithin ' ' '/' c then deviceIntermediates
      else deviceParameters
    | deviceIntermediates => if isWithin '0' '~' c then string else deviceIntermediates
    | string => if endsString c then text else string
    | systemCommand => if c = '\x07' then text else systemCommand

end Mode

/-- The plain part of a text that starts in a mode, which may be suspended. A character beyond
ASCII gives a suspended sequence up. -/
def plainFrom (m : Mode) (suspended : Bool) : List Char → List Char
  | [] => []
  | c :: cs =>
    if suspended && isPlain c then
      c :: plainFrom (if c ≤ '\x7f' then m else .text) (c ≤ '\x7f') cs
    else if m.keeps c then c :: plainFrom m (m ≠ .text) cs
    else plainFrom (m.next c) false cs

/-- The text without control characters and sequences. -/
def plain (text : List Char) : List Char := plainFrom .text false text

/-- A text without control characters stays as it is. -/
theorem plain_of_isPlain {text : List Char} (h : ∀ c ∈ text, isPlain c) : plain text = text := by
  induction text with
  | nil => rfl
  | cons c cs ih =>
    have hc : isPlain c = true := h c List.mem_cons_self
    have hcs : plainFrom .text false cs = cs := ih fun d hd => h d (List.mem_cons_of_mem _ hd)
    simp [plain, plainFrom, Mode.keeps, hc, hcs]

theorem Mode.isPlain_of_keeps {m : Mode} {c : Char} (h : m.keeps c) : isPlain c := by
  cases m <;> simp_all [keeps, isPlain]

theorem isPlain_of_mem_plainFrom {m : Mode} {suspended : Bool} {text : List Char} {c : Char}
    (h : c ∈ plainFrom m suspended text) : isPlain c := by
  fun_induction plainFrom m suspended text with
  | case1 => simp at h
  | case2 m suspended d ds hd ih =>
    rcases List.mem_cons.1 h with rfl | h
    · exact (Bool.and_eq_true_iff.1 hd).2
    · exact ih h
  | case3 m suspended d ds hd hkeeps ih =>
    rcases List.mem_cons.1 h with rfl | h
    · exact Mode.isPlain_of_keeps hkeeps
    · exact ih h
  | case4 m suspended d ds hd hkeeps ih => exact ih h

/-- No control character but white space is left. -/
theorem isPlain_of_mem_plain {text : List Char} {c : Char} (h : c ∈ plain text) : isPlain c :=
  isPlain_of_mem_plainFrom h

end BytePair.Terminal
