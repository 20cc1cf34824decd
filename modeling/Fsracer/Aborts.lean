/-
  File:      Fsracer/Aborts.lean
  Subject:   WHEN A REACHABILITY QUERY ABORTS.

  `DFS` asserts that everything it reaches is a node. **`neverAborts_iff`**: the assertion holds
  for every query on the dependency graph of a trace iff every link that adds an edge is resolved.
  The parser does not look at the events of a link (`neverAborts_fails`).
-/
import Mathlib
import Fsracer.RaceDetector
import Fsracer.TraceParser
import Fsracer.Dump

namespace Fsracer

open Detector

/-- No query on the dependency graph of `t` aborts, whatever was queried before. -/
structure NeverAborts (t : Trace) : Prop where
  target : ∀ s x l, (dependencyGraph t).EdgeL s x l → (dependencyGraph t).HasNode x
  search : ∀ s, (dependencyGraph t).HasNode s →
    ∃ visited, (dependencyGraph t).dfs s = .done visited
  query : ∀ d x y, ∃ r d', happensBefore (dependencyGraph t) d x y = some (r, d')

/-- **No query aborts iff every link that adds an edge is resolved.** -/
theorem neverAborts_iff (t : Trace) : NeverAborts t ↔ LinksResolved t := by
  rw [← closed_dependencyGraph_iff]
  refine ⟨fun h s x ⟨l, he⟩ => h.target s x l he, fun hg => ?_⟩
  exact ⟨fun s x l he => hg s x ⟨l, he⟩, fun s hs => hg.dfs_done hs, happensBefore_returns hg⟩

/-- A main block creates event 4 and links it to 99, which no block creates. -/
def unresolvedLink : Trace where
  threadId := 1
  cwd := "/home"
  execOps := [⟨"sync_0", []⟩]
  blocks := [⟨1, .MAIN, [.newEvent ⟨4, ⟨.S, 0⟩, []⟩, .link ⟨4, 99, []⟩]⟩]

/-- The parser accepts a file on whose graph `DFS` fails its assertion. -/
theorem neverAborts_fails : ¬ ∀ t, TraceParser.Accepts t → NeverAborts t := by
  intro h
  have hp : TraceParser.parse (dump unresolvedLink) = .ok unresolvedLink := by decide +kernel
  obtain ⟨visited, hv⟩ := (h _ ⟨_, hp⟩).search "4" (by decide +kernel)
  have hf : (dependencyGraph unresolvedLink).hasPath "4" "99" = none := by decide +kernel
  rw [Graph.hasPath, hv] at hf
  cases hf

end Fsracer
