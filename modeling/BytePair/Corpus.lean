import BytePair.Vocabulary

/-!
# Corpora

Documents under training, with the vocabulary that grows out of them. A document is cut into the
tokens of its bytes when it is ingested, and merges shorten it.
-/

namespace BytePair

/-- A vocabulary and the documents, as sequences of its tokens, in the order of their arrival. -/
structure Corpus where
  vocabulary : Vocabulary
  sequences : Array Sequence

namespace Corpus

/-- The corpus without documents. -/
def fresh : Corpus := ⟨Vocabulary.fresh, #[]⟩

/-- The corpus with one more document. -/
def ingest (c : Corpus) (document : Bytes) : Corpus :=
  let (vocabulary, sequence) := c.vocabulary.atomize document
  ⟨vocabulary, c.sequences.push sequence⟩

/-- The number of documents. -/
def size (c : Corpus) : Nat := c.sequences.size

def isEmpty (c : Corpus) : Bool := c.sequences.isEmpty

/-- The length of all documents together, in tokens. -/
def symbolCount (c : Corpus) : Nat := c.sequences.foldl (fun n s => n + s.length) 0

end Corpus

end BytePair
