import ChunkDirectory.Json.Printer
import ChunkDirectory.Message.Term

/-!
# Messages in reports

A report is read by other programs and shows terms as JSON. An alternative is its name, or an object
with its name as the only key; types of their own leave no trace; a missing value is null; maps are
lists of pairs. Numbers of 64 bits are written as strings, since many readers of JSON would round
them. Entries in an order without meaning are sorted by their numbers.
-/

namespace ChunkDirectory

namespace Term

/-- A pair of values. -/
def reportPair (first second : Json) : Json := .list [first, second]

mutual

/-- The JSON form of a term. -/
def report : Term → Json
  | .number n => .ofNat n
  | .wide n => .ofString (toString n)
  | .truth b => .bool b
  | .quoted s => .ofString s
  | .none => .null
  | .some value => value.report
  | .name s => .ofString s
  | .choice label value => .ofFields [(label, value.report)]
  | .variant label fields => .ofFields [(label, .ofFields (fieldReports fields))]
  | .wrapped _ value => value.report
  | .record _ fields => .ofFields (fieldReports fields)
  | .pair first second => reportPair first.report second.report
  | .list items => .list (itemReports items)
  | .map entries => .list (entryReports entries)
  | .table entries =>
    .list (((rowReports entries).mergeSort fun a b => a.1 ≤ b.1).map fun row =>
      reportPair (.ofNat row.1) row.2)

def itemReports : List Term → List Json
  | [] => []
  | t :: rest => t.report :: itemReports rest

def fieldReports : List (String × Term) → List (String × Json)
  | [] => []
  | (label, t) :: rest => (label, t.report) :: fieldReports rest

def entryReports : List (Term × Term) → List Json
  | [] => []
  | (key, value) :: rest => reportPair key.report value.report :: entryReports rest

def rowReports : List (Nat × Term) → List (Nat × Json)
  | [] => []
  | (key, value) :: rest => (key, value.report) :: rowReports rest

end

end Term

/-- A message in a report, its trees in full or by their digests. -/
def Message.report (full : Bool) (m : Message) : Json :=
  (Term.message (if full then Term.tree else Term.treeDigest) m).report

end ChunkDirectory
