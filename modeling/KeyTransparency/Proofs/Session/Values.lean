import KeyTransparency.Proofs.Session.Heads

/-!
# The values of a session

A position of the log keeps its value throughout a session.  A value that was found under some head
stands in the tree of every later head, because each root passes on what the root before it commits
to, and the tree of the last head holds one leaf at a position.  No list of leaves is assumed.
-/

namespace KeyTransparency

variable {G : PointGroup} {config : Config G}

/-- The byte strings that are hashed for the values found in a session. -/
def Session.valueMessages (session : Session config) : List Bytes :=
  session.accepted.flatMap fun acceptance => acceptance.exchange.valueMessages config

theorem VerifiedTreeHead.Follows.standsIn {hashed : List Bytes} (hsafe : ¬Collision hashed)
    {head earlier : VerifiedTreeHead} {proof : List Hash} (h : head.Follows earlier proof)
    (hpos : earlier.treeSize ≠ 0) (hproof : head.extensionMessages earlier proof ⊆ hashed)
    {value : VerifiedValue} (hvalue : value.StandsIn hashed earlier) :
    value.StandsIn hashed head := by
  obtain ⟨leaf, hcontains, hopens⟩ := hvalue
  exact ⟨leaf, h.contains hsafe hpos hproof hcontains, hopens⟩

/-- Every value that was found stands in the tree of the last head. -/
theorem History.standsIn_last {hashed : List Bytes} (hsafe : ¬Collision hashed) {seen : LastSeen}
    {accepted : List (Acceptance config)} (h : History seen accepted)
    (hconsistency : accepted.flatMap Acceptance.consistencyMessages ⊆ hashed)
    (hvalues : (accepted.flatMap fun acceptance => acceptance.exchange.valueMessages config) ⊆
      hashed)
    {value : VerifiedValue} (hvalue : value ∈ accepted.flatMap (·.report.values)) :
    ∃ last, seen.last = some last ∧ value.StandsIn hashed last := by
  induction h with
  | start => cases hvalue
  | accept acceptance hpast ih =>
    refine ⟨_, LastSeen.last_after acceptance.seen acceptance.report, ?_⟩
    rw [List.flatMap_cons] at hconsistency hvalues hvalue
    obtain ⟨hhere, hbefore⟩ := List.append_subset.mp hconsistency
    obtain ⟨hfound, hearlier⟩ := List.append_subset.mp hvalues
    rcases List.mem_append.mp hvalue with hnow | hpastValue
    · exact (Exchange.standsIn_of_verify acceptance.verified hnow).mono hfound
    · obtain ⟨earlier, hseen, hstands⟩ := ih hbefore hearlier hpastValue
      have hne := hpast.treeSize_ne_zero_of_last hseen
      rw [acceptance.consistencyMessages_eq hseen] at hhere
      exact (acceptance.follows_last hseen).standsIn hsafe hne hhere hstands

/-- Two values found in a session at one position are the same, or two different byte strings that
were hashed have the same digest. -/
theorem Session.value_eq_or_collision (config : Config G) (turns : List Turn)
    {value value' : VerifiedValue} (hvalue : value ∈ (run config turns).values)
    (hvalue' : value' ∈ (run config turns).values) (hposition : value.position = value'.position) :
    value.value = value'.value ∨
      Collision
        ((run config turns).consistencyMessages ++ (run config turns).valueMessages) := by
  by_cases hsafe : Collision
      ((run config turns).consistencyMessages ++ (run config turns).valueMessages)
  · exact .inr hsafe
  · have hhistory := History.run config turns
    rw [values, reports, List.flatMap_map] at hvalue hvalue'
    obtain ⟨last, hlast, leaf, hcontains, hopens⟩ := hhistory.standsIn_last hsafe
      (List.subset_append_left _ _) (List.subset_append_right _ _) hvalue
    obtain ⟨last', hlast', leaf', hcontains', hopens'⟩ := hhistory.standsIn_last hsafe
      (List.subset_append_left _ _) (List.subset_append_right _ _) hvalue'
    cases hlast.symm.trans hlast'
    rw [← hposition] at hcontains'
    rw [← hcontains.leaf_unique hsafe hcontains'] at hopens'
    exact .inl (hopens.value_eq hsafe hopens')

namespace TwoSearches

/-- The two searches for one account find the same value, unless there is a collision. -/
theorem value_eq_two_searches :
    (Session.run client turns).values = [found, found] ∧
      (found.value = found.value ∨
        Collision ((Session.run client turns).consistencyMessages ++
          (Session.run client turns).valueMessages)) := by
  have hvalues : (Session.run client turns).values = [found, found] := by
    rw [Session.values, reports_run]
    rfl
  have hmem : found ∈ (Session.run client turns).values := by
    rw [hvalues]
    exact List.mem_cons_self
  exact ⟨hvalues, Session.value_eq_or_collision client turns hmem hmem rfl⟩

end TwoSearches

end KeyTransparency
