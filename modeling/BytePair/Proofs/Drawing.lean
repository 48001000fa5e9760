import BytePair.Proofs.Exporting

/-!
# What the graph tells

The lines of the graph can be told apart, and each of them tells all that it was made from.

* `Text.readQuoted`: reading a quoted string, in which backslashes and quotes are escaped;
  `Vocabulary.readQuoted_label`: a label ends where its quotes end, and gives the glyphs back.
* `Vocabulary.nodeText_append_inj`, `Vocabulary.edgeText_append_inj`: the line of a node and the
  lines of a rule end by themselves, and are different.
* `Vocabulary.graph_unambiguous`: so no two vocabularies have the same graph, but for the entry of
  the unknown token.
-/

namespace BytePair

/-! ## Quoted strings -/

namespace Text

/-- The text with a backslash in front of every `c`. -/
def escaping (c : Char) (text : List Char) : List Char :=
  text.flatMap fun d => if d = c then ['\\', d] else [d]

/-- Reads a quoted string, from behind its first quote: what it stands for, and what follows its
last quote. A backslash may stand before a backslash or a quote only, which it makes a part of the
string. -/
def readQuoted : List Char → Option (List Char × List Char)
  | [] => none
  | '"' :: rest => some ([], rest)
  | '\\' :: c :: rest =>
    if c = '\\' ∨ c = '"' then (readQuoted rest).map fun read => (c :: read.1, read.2) else none
  | c :: rest =>
    if c = '\\' then none else (readQuoted rest).map fun read => (c :: read.1, read.2)

end Text

namespace Vocabulary

open Text (readQuoted escaping)

variable {v w : Vocabulary} {id : TokenId} {bs cs : Bytes} {r r' : Rule} {x y : List Char}

theorem toList_label (bs : Bytes) :
    (label bs).toList = (bs.map Text.glyph).flatMap fun c => (labelChar c).toList := by
  simp [label, String.toList_join, List.flatMap_map]

theorem toList_visible (bs : Bytes) : (Text.visible bs).toList = bs.map Text.glyph := by
  simp [Text.visible]

theorem readQuoted_labelChar_append (c : Char) (x : List Char) :
    readQuoted ((labelChar c).toList ++ x) =
      (readQuoted x).map fun read => (c :: read.1, read.2) := by
  unfold labelChar
  split_ifs with hbackslash hquote
  · subst hbackslash
    simp [readQuoted]
  · subst hquote
    simp [readQuoted]
  · simp [readQuoted, hbackslash]

/-- A label ends just before the quote that was put behind it, and stands for the glyphs. -/
theorem readQuoted_label (bs : Bytes) (x : List Char) :
    readQuoted ((label bs).toList ++ '"' :: x) = some ((Text.visible bs).toList, x) := by
  rw [toList_label, toList_visible]
  induction bs.map Text.glyph with
  | nil => rfl
  | cons c glyphs ih =>
    rw [List.flatMap_cons, List.append_assoc, readQuoted_labelChar_append, ih, Option.map_some]

/-- The two escapes may be made one after the other. -/
theorem toList_label_eq_escaping (bs : Bytes) :
    (label bs).toList = escaping '"' (escaping '\\' (Text.visible bs).toList) := by
  rw [toList_label, toList_visible, escaping, escaping, List.flatMap_assoc]
  refine List.flatMap_congr fun c _ => ?_
  unfold labelChar
  split_ifs <;> simp_all

/-- No glyph breaks a line. -/
theorem glyph_ne_lineBreak (b : UInt8) : Text.glyph b ≠ '\n' ∧ Text.glyph b ≠ '\r' := by
  have h : ∀ i : Fin 256,
      Text.glyph (UInt8.ofFin i) ≠ '\n' ∧ Text.glyph (UInt8.ofFin i) ≠ '\r' := by
    decide +kernel
  exact h b.toFin

/-- An escape is made of the character and a backslash. -/
theorem eq_or_eq_of_mem_labelChar {c d : Char} (h : d ∈ (labelChar c).toList) :
    d = '\\' ∨ d = c := by
  unfold labelChar at h
  split_ifs at h <;> simp_all

/-- A label stays on its line. -/
theorem notMem_label (bs : Bytes) : '\n' ∉ (label bs).toList ∧ '\r' ∉ (label bs).toList := by
  have hne {c : Char} (hc : c ∈ (label bs).toList) : c ≠ '\n' ∧ c ≠ '\r' := by
    rw [toList_label, List.mem_flatMap] at hc
    obtain ⟨_, hd, hc⟩ := hc
    obtain ⟨b, -, rfl⟩ := List.mem_map.1 hd
    rcases eq_or_eq_of_mem_labelChar hc with rfl | rfl
    · decide
    · exact glyph_ne_lineBreak b
  exact ⟨fun h => (hne h).1 rfl, fun h => (hne h).2 rfl⟩

/-! ## Lines -/

/-- What a line of the graph starts with. -/
def indentation : List Char := [' ', ' ', ' ', ' ']

def labelStart : List Char := [' ', '[', 'l', 'a', 'b', 'e', 'l', '=', '"']

def labelEnd : List Char := ['"', ']', ';', '\n']

def arrow : List Char := [' ', '-', '>', ' ']

def edgeEnd : List Char := [';', '\n']

/-- The line of a token. -/
def nodeText (node : TokenId × Bytes) : List Char :=
  indentation ++ Nat.toDigits 10 node.1 ++ labelStart ++ (label node.2).toList ++ labelEnd

/-- The line of an edge. -/
def edgeText (source target : TokenId) : List Char :=
  indentation ++ Nat.toDigits 10 source ++ arrow ++ Nat.toDigits 10 target ++ edgeEnd

theorem toList_nodeLine (v : Vocabulary) (id : TokenId) :
    (v.nodeLine id).toList = nodeText (id, (v.bytes? id).getD []) := by
  simp [nodeLine, nodeText, indentation, labelStart, labelEnd, ToString.toString]

theorem toList_edgeLines (r : Rule) :
    (edgeLines r).toList = edgeText r.new r.pair.left ++ edgeText r.new r.pair.right := by
  simp [edgeLines, edgeText, indentation, arrow, edgeEnd, ToString.toString]

theorem label_append_inj (h : (label bs).toList ++ '"' :: x = (label cs).toList ++ '"' :: y) :
    bs = cs ∧ x = y := by
  have hread := congrArg readQuoted h
  rw [readQuoted_label, readQuoted_label, Option.some.injEq, Prod.mk.injEq] at hread
  exact ⟨Text.visible_injective (String.toList_inj.1 hread.1), hread.2⟩

theorem nodeText_append_inj {n m : TokenId × Bytes} (h : nodeText n ++ x = nodeText m ++ y) :
    n = m ∧ x = y := by
  simp only [nodeText, labelStart, labelEnd, List.append_assoc, List.append_cancel_left_eq,
    List.cons_append, List.nil_append] at h
  obtain ⟨hid, h⟩ := toDigits_append_inj (stopsDigits_cons rfl _) (stopsDigits_cons rfl _) h
  simp only [List.cons.injEq, true_and] at h
  obtain ⟨hbytes, h⟩ := label_append_inj h
  simp only [List.cons.injEq, true_and] at h
  exact ⟨Prod.ext hid hbytes, h⟩

theorem edgeText_append_inj {source source' target target' : TokenId}
    (h : edgeText source target ++ x = edgeText source' target' ++ y) :
    source = source' ∧ target = target' ∧ x = y := by
  simp only [edgeText, arrow, edgeEnd, List.append_assoc, List.append_cancel_left_eq,
    List.cons_append, List.nil_append] at h
  obtain ⟨hsource, h⟩ := toDigits_append_inj (stopsDigits_cons rfl _) (stopsDigits_cons rfl _) h
  simp only [List.cons.injEq, true_and] at h
  obtain ⟨htarget, h⟩ := toDigits_append_inj (stopsDigits_cons rfl _) (stopsDigits_cons rfl _) h
  simp only [List.cons.injEq, true_and] at h
  exact ⟨hsource, htarget, h⟩

theorem edgeLines_append_inj (h : (edgeLines r).toList ++ x = (edgeLines r').toList ++ y) :
    r = r' ∧ x = y := by
  rw [toList_edgeLines, toList_edgeLines, List.append_assoc, List.append_assoc] at h
  obtain ⟨hnew, hleft, h⟩ := edgeText_append_inj h
  obtain ⟨-, hright, h⟩ := edgeText_append_inj h
  obtain ⟨⟨left, right⟩, new⟩ := r
  obtain ⟨⟨left', right'⟩, new'⟩ := r'
  simp_all

/-- Behind the number of a node there is a label, behind that of an edge an arrow. -/
theorem nodeText_append_ne_edgeText {n : TokenId × Bytes} {source target : TokenId} :
    nodeText n ++ x ≠ edgeText source target ++ y := by
  intro h
  simp only [nodeText, edgeText, labelStart, arrow, List.append_assoc, List.append_cancel_left_eq,
    List.cons_append, List.nil_append] at h
  obtain ⟨-, h⟩ := toDigits_append_inj (stopsDigits_cons rfl _) (stopsDigits_cons rfl _) h
  simp at h

/-! ## The graph -/

/-- The last line of the graph. -/
def graphEnd : List Char := ['\x7d', '\n']

/-- The tokens of the graph. -/
def nodes (v : Vocabulary) : List (TokenId × Bytes) :=
  v.knownIds.map fun id => (id, (v.bytes? id).getD [])

theorem mem_nodes : (id, bs) ∈ v.nodes ↔ id ≠ unknown ∧ v.bytes? id = some bs := by
  rw [nodes, List.mem_map]
  constructor
  · rintro ⟨id, hid, heq⟩
    obtain ⟨rfl, rfl⟩ := Prod.mk.inj heq
    obtain ⟨hne, bs, hbs⟩ := mem_knownIds.1 hid
    exact ⟨hne, by rw [hbs, Option.getD_some]⟩
  · rintro ⟨hne, hbs⟩
    exact ⟨id, mem_knownIds.2 ⟨hne, bs, hbs⟩, by rw [hbs, Option.getD_some]⟩

/-- The graph is the lines of the tokens and then those of the rules. -/
theorem toList_graph (v : Vocabulary) : v.graph.toList = "digraph G \x7b\n".toList ++
    (v.nodes.flatMap nodeText ++
      (v.rules.toList.flatMap (fun r => (edgeLines r).toList) ++ graphEnd)) := by
  simp only [graph, String.toList_append, String.toList_join, List.flatMap_map, toList_nodeLine,
    nodes, List.append_assoc]
  rfl

/-- Items that end by themselves, up to the first thing that is no item. -/
theorem flatMap_append_inj_of_ne {α : Type} {f : α → List Char} {l l' : List α}
    (hf : ∀ {a b : α} {x y : List Char}, f a ++ x = f b ++ y → a = b ∧ x = y)
    (hx : ∀ a z, f a ++ z ≠ x) (hy : ∀ a z, f a ++ z ≠ y)
    (h : l.flatMap f ++ x = l'.flatMap f ++ y) : l = l' ∧ x = y := by
  induction l generalizing l' with
  | nil =>
    cases l' with
    | nil => exact ⟨rfl, h⟩
    | cons b l' =>
      rw [List.flatMap_cons, List.append_assoc] at h
      exact absurd h.symm (hx b _)
  | cons a l ih =>
    cases l' with
    | nil =>
      rw [List.flatMap_cons, List.append_assoc] at h
      exact absurd h (hy a _)
    | cons b l' =>
      rw [List.flatMap_cons, List.flatMap_cons, List.append_assoc, List.append_assoc] at h
      obtain ⟨rfl, hrest⟩ := hf h
      obtain ⟨rfl, hxy⟩ := ih hrest
      exact ⟨rfl, hxy⟩

theorem edgeLines_append_ne_graphEnd (r : Rule) : (edgeLines r).toList ++ x ≠ graphEnd := by
  simp [toList_edgeLines, edgeText, indentation, graphEnd]

/-- The lines of the rules do not start like that of a token, and there may be none. -/
theorem nodeText_append_ne_rules (n : TokenId × Bytes) (rules : List Rule) :
    nodeText n ++ x ≠ rules.flatMap (fun r => (edgeLines r).toList) ++ graphEnd := by
  cases rules with
  | nil => simp [nodeText, indentation, graphEnd]
  | cons r rules =>
    rw [List.flatMap_cons, List.append_assoc, toList_edgeLines, List.append_assoc]
    exact nodeText_append_ne_edgeText

/-- The graph determines its tokens and its rules. -/
theorem eq_of_graph_eq (h : v.graph = w.graph) : v.nodes = w.nodes ∧ v.rules = w.rules := by
  have h := congrArg String.toList h
  rw [toList_graph, toList_graph, List.append_cancel_left_eq] at h
  obtain ⟨hnodes, h⟩ := flatMap_append_inj_of_ne nodeText_append_inj
    (fun n _ => nodeText_append_ne_rules n _) (fun n _ => nodeText_append_ne_rules n _) h
  obtain ⟨hrules, -⟩ := flatMap_append_inj_of_ne edgeLines_append_inj
    (fun r _ => edgeLines_append_ne_graphEnd r) (fun r _ => edgeLines_append_ne_graphEnd r) h
  exact ⟨hnodes, Array.toList_inj.1 hrules⟩

/-- How the graph shows a token: on a line of its own, by its glyphs between quotes. Backslashes and
then quotes are escaped, so the label ends where it is closed, and reading it gives the glyphs. -/
structure Drawn (v : Vocabulary) (id : TokenId) (bs : Bytes) : Prop where
  line : (s!"    {id} [label=\"" ++ label bs ++ "\"];\n").toList <:+: v.graph.toList
  escaped : (label bs).toList = escaping '"' (escaping '\\' (Text.visible bs).toList)
  closed (behind : List Char) : readQuoted ((label bs).toList ++ '"' :: behind) =
    some ((Text.visible bs).toList, behind)
  one_line : '\n' ∉ (label bs).toList ∧ '\r' ∉ (label bs).toList

theorem drawn_of_bytes? (hid : id ≠ unknown) (hbs : v.bytes? id = some bs) : v.Drawn id bs := by
  refine ⟨?_, toList_label_eq_escaping bs, readQuoted_label bs, notMem_label bs⟩
  have hline : (s!"    {id} [label=\"" ++ label bs ++ "\"];\n").toList = nodeText (id, bs) := by
    simp [nodeText, indentation, labelStart, labelEnd, ToString.toString]
  obtain ⟨us, vs, hnodes⟩ := List.append_of_mem (mem_nodes.2 ⟨hid, hbs⟩)
  have hnode : nodeText (id, bs) <:+: v.nodes.flatMap nodeText :=
    ⟨us.flatMap nodeText, vs.flatMap nodeText, by rw [hnodes]; simp⟩
  rw [hline, toList_graph]
  exact (hnode.trans (List.infix_append' [] _ _)).trans (List.suffix_append _ _).isInfix

/-- **The graph is unambiguous.** Two vocabularies that have the same graph have the same real
tokens and the same rules, in the same order; every real token is drawn with a label that ends where
it is closed, stays on its line, and stands for the glyphs of the token. -/
theorem graph_unambiguous :
    (∀ v w : Vocabulary, v.graph = w.graph →
      (∀ id, 1 ≤ id → v.bytes? id = w.bytes? id) ∧ v.rules = w.rules) ∧
      ∀ (v : Vocabulary) (id : TokenId) (bs : Bytes), 1 ≤ id → v.bytes? id = some bs →
        v.Drawn id bs := by
  refine ⟨fun v w h => ?_, fun v id bs hid hbs => drawn_of_bytes? (Nat.ne_of_gt hid) hbs⟩
  obtain ⟨hnodes, hrules⟩ := eq_of_graph_eq h
  refine ⟨fun id hid => Option.ext fun bs => ?_, hrules⟩
  have hmem {u : Vocabulary} : (id, bs) ∈ u.nodes ↔ u.bytes? id = some bs :=
    mem_nodes.trans (and_iff_right (Nat.ne_of_gt hid))
  rw [← hmem, ← hmem, hnodes]

/-- A quote and a backslash, the one in front of the other, and a rule for what is not in the table.
The second vocabulary has another text for the unknown token, which the graph does not show. -/
theorem graph_unambiguous_but_for_unknown :
    let ops := [.insert [0x22], .insert [0x5C], .addRule ⟨2, 1⟩, .addRule ⟨9, 2⟩]
    let v := fresh.after ops
    let w := (ofTable #[[]] #[]).after ops
    v.graph = "digraph G \x7b\n    1 [label=\"\\\"\"];\n    2 [label=\"\\\\\"];\n" ++
        "    3 [label=\"\\\\\\\"\"];\n    3 -> 2;\n    3 -> 1;\n    2 -> 9;\n    2 -> 2;\n\x7d\n" ∧
      v.graph = w.graph ∧ v.bytes? unknown ≠ w.bytes? unknown ∧
      (∀ id, 1 ≤ id → v.bytes? id = w.bytes? id) ∧ v.rules = w.rules ∧
      v.Drawn 3 [0x5C, 0x22] := by
  intro ops v w
  have hgraph : v.graph = w.graph := by decide +kernel
  obtain ⟨hsame, hdrawn⟩ := graph_unambiguous
  obtain ⟨hbytes, hrules⟩ := hsame v w hgraph
  exact ⟨by decide +kernel, hgraph, by decide +kernel, hbytes, hrules,
    hdrawn v 3 _ (by decide) (by decide +kernel)⟩

end Vocabulary

end BytePair
