import ValueTrace.Finding.Basic

/-! A log of findings. It keeps one finding for each message and line of a file, and forgets what
was reported after a mark when an attempt is given up. -/

namespace ValueTrace

/-- What tells findings apart. -/
abbrev Finding.Key := String × Nat × String

def Finding.key (f : Finding) : Finding.Key := (f.filename, f.line, f.message)

/-- The findings in order, and the keys that are taken. -/
structure FindingLog where
  findings : List Finding := []
  seen : List Finding.Key := []
  deriving DecidableEq, Repr, Inhabited

namespace FindingLog

def report (l : FindingLog) (f : Finding) : FindingLog :=
  if l.seen.contains f.key then l
  else { findings := l.findings ++ [f], seen := f.key :: l.seen }

def checkpoint (l : FindingLog) : Nat := l.findings.length

def revertTo (l : FindingLog) (mark : Nat) : FindingLog where
  findings := l.findings.take mark
  seen := (l.findings.drop mark).foldl (fun seen f => seen.erase f.key) l.seen

def count (l : FindingLog) (k : FindingKind) : Nat := l.findings.countP (·.kind == k)

def text (l : FindingLog) : String := l.findings.foldl (fun s f => s ++ f.text ++ "\n") ""

end FindingLog

end ValueTrace
