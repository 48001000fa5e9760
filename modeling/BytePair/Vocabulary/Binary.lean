import BytePair.Vocabulary
import Std.Data.ExtTreeSet

/-!
# The binary form of a vocabulary

All numbers take four bytes, the lowest first:

* the number of tokens, and for each its id, its length and its bytes;
* the number of rules, and for each the ids of its left, right and new token.

`Vocabulary.toBytes` writes the form, and `Vocabulary.ofBytes` reads it and refuses everything
else: ids that are not the positions in the table, equal tokens, rules whose new token is not made
of the two others, and bytes that are missing or left over.
-/

namespace BytePair

/-- The parts of the form. -/
inductive Field where
  | entryCount | entryId | entryLength | entryBytes
  | mergeCount | mergeLeft | mergeRight | mergeNew
  deriving DecidableEq, Repr

def Field.name : Field → String
  | entryCount => "entry count"
  | entryId => "entry id"
  | entryLength => "entry length"
  | entryBytes => "entry bytes"
  | mergeCount => "merge count"
  | mergeLeft => "merge left id"
  | mergeRight => "merge right id"
  | mergeNew => "merge new id"

/-- Why bytes are no vocabulary. -/
inductive Corruption where
  /-- The bytes end inside a field, of which `left` bytes are there. -/
  | truncated (field : Field) (need left : Nat)
  /-- The table is empty. -/
  | noEntries
  /-- The entry at `index` has another id than `index`. -/
  | misplacedEntry (index id : Nat)
  /-- A token has the bytes of an earlier one. -/
  | duplicateEntry (id : Nat)
  /-- A rule names a token that the table does not have. -/
  | outsideTable (rank id : Nat)
  /-- A rule names the unknown token. -/
  | unknownInRule (rank : Nat)
  /-- The new token of a rule is not made of the two others. -/
  | notConcatenation (rank : Nat) (rule : Rule)
  /-- Bytes follow the last rule. -/
  | trailing (bytes : Nat)
  deriving DecidableEq, Repr

def Corruption.message : Corruption → String
  | truncated field need left =>
    s!"truncated while reading {field.name}: need {need} bytes, {left} left"
  | noEntries => "vocabulary has no entries; the unknown symbol is missing"
  | misplacedEntry index id => s!"entry {index} declares id {id}; ids must be dense and ordered"
  | duplicateEntry id => s!"entry {id} duplicates an earlier token"
  | outsideTable rank id => s!"merge {rank} references id {id} outside the table"
  | unknownInRule rank => s!"merge {rank} uses the unknown symbol"
  | notConcatenation rank rule =>
    s!"merge {rank}: token {rule.new} is not the concatenation of " ++
      s!"{rule.pair.left} and {rule.pair.right}"
  | trailing bytes => s!"{bytes} unexpected trailing bytes"

namespace Binary

/-! ## Writing -/

/-- The four bytes of a number below `2 ^ 32`. -/
def number (n : Nat) : Bytes :=
  [UInt8.ofNat n, UInt8.ofNat (n / 0x100), UInt8.ofNat (n / 0x10000), UInt8.ofNat (n / 0x1000000)]

/-- A token with its id. -/
def entry (id : TokenId) (bs : Bytes) : Bytes := number id ++ number bs.length ++ bs

def rule (r : Rule) : Bytes := number r.pair.left ++ number r.pair.right ++ number r.new

/-! ## Reading -/

/-- A number, and the bytes behind it. -/
def readNumber (field : Field) : Bytes → Except Corruption (Nat × Bytes)
  | a :: b :: c :: d :: rest =>
    .ok (a.toNat + b.toNat * 0x100 + c.toNat * 0x10000 + d.toNat * 0x1000000, rest)
  | short => .error (.truncated field 4 short.length)

theorem readNumber_number (field : Field) {n : Nat} (h : n < 0x100000000) (rest : Bytes) :
    readNumber field (number n ++ rest) = .ok (n, rest) := by
  simp only [number, List.cons_append, List.nil_append, readNumber, UInt8.toNat_ofNat']
  congr 2
  omega

/-- The next `n` bytes, and those behind them. -/
def readBytes (field : Field) (n : Nat) (data : Bytes) : Except Corruption (Bytes × Bytes) :=
  let bs := data.take n
  if bs.length = n then .ok (bs, data.drop n) else .error (.truncated field n data.length)

/-- Reads `n` entries behind those in `tokens`. The bytes of the entries so far, the first one
left out, are in `seen`. -/
def readEntries :
    Nat → Array Bytes → Std.ExtTreeSet Bytes → Bytes → Except Corruption (Array Bytes × Bytes)
  | 0, tokens, _, data => .ok (tokens, data)
  | n + 1, tokens, seen, data => do
    let (id, data) ← readNumber .entryId data
    if id ≠ tokens.size then throw (.misplacedEntry tokens.size id)
    let (length, data) ← readNumber .entryLength data
    let (bs, data) ← readBytes .entryBytes length data
    if id = unknown then readEntries n (tokens.push bs) seen data
    else if bs ∈ seen then throw (.duplicateEntry id)
    else readEntries n (tokens.push bs) (seen.insert bs) data

/-- The bytes of a token that the rule of this rank names. -/
def operand (tokens : Array Bytes) (rank : Nat) (id : TokenId) : Except Corruption Bytes :=
  match tokens[id]? with
  | some bs => .ok bs
  | none => .error (.outsideTable rank id)

/-- Refuses a rule that does not fit the table. -/
def checkRule (tokens : Array Bytes) (rank : Nat) (r : Rule) : Except Corruption Unit := do
  let left ← operand tokens rank r.pair.left
  let right ← operand tokens rank r.pair.right
  let new ← operand tokens rank r.new
  if r.pair.left = unknown ∨ r.pair.right = unknown ∨ r.new = unknown then
    throw (.unknownInRule rank)
  if new.length ≠ left.length + right.length ∨ ¬left.isPrefixOf new ∨ ¬right.isSuffixOf new then
    throw (.notConcatenation rank r)

/-- Reads `n` rules behind those in `rules`. -/
def readRules (tokens : Array Bytes) :
    Nat → Array Rule → Bytes → Except Corruption (Array Rule × Bytes)
  | 0, rules, data => .ok (rules, data)
  | n + 1, rules, data => do
    let (left, data) ← readNumber .mergeLeft data
    let (right, data) ← readNumber .mergeRight data
    let (new, data) ← readNumber .mergeNew data
    let r := ⟨⟨left, right⟩, new⟩
    checkRule tokens rules.size r
    readRules tokens n (rules.push r) data

end Binary

namespace Vocabulary

/-- The binary form. -/
def toBytes (v : Vocabulary) : Bytes :=
  Binary.number v.size ++ v.tokens.toList.zipIdx.flatMap (fun (bs, id) => Binary.entry id bs) ++
    Binary.number v.rules.size ++ v.rules.toList.flatMap Binary.rule

/-- Reads the binary form. -/
def ofBytes (data : Bytes) : Except Corruption Vocabulary := do
  let (entries, data) ← Binary.readNumber .entryCount data
  if entries = 0 then throw .noEntries
  let (tokens, data) ← Binary.readEntries entries #[] ∅ data
  let (count, data) ← Binary.readNumber .mergeCount data
  let (rules, data) ← Binary.readRules tokens count #[] data
  if data.length ≠ 0 then throw (.trailing data.length)
  return ofTable tokens rules

end Vocabulary

end BytePair
