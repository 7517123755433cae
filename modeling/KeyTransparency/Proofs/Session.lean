import KeyTransparency.Proofs.Response

/-!
# Sessions

A client starts without any memory and goes through exchanges one after the other, each at a time of
its own.  An exchange that is accepted decides what the client remembers next, and one that is
refused changes nothing.  A session keeps, beside what is remembered, every acceptance with all that
led to it; `History` says how the acceptances of a session hang together, and everything that holds
throughout a session is shown by induction on it.
-/

namespace KeyTransparency

variable {G : PointGroup}

/-- An exchange at a time, in milliseconds since the start of 1970. -/
structure Turn where
  now : Int64
  exchange : Exchange

/-- An exchange that was accepted, with what the client remembered before it. -/
structure Acceptance (config : Config G) where
  seen : LastSeen
  now : Int64
  exchange : Exchange
  report : Report
  verified : (exchange.verify ⟨config, seen, now⟩).result = .ok report

/-- What a client remembers, and the exchanges that it accepted, the latest first. -/
structure Session (config : Config G) where
  seen : LastSeen
  accepted : List (Acceptance config)

namespace Session

variable {config : Config G}

def start : Session config := ⟨.empty, []⟩

/-- A session after one more exchange: a refused one leaves it as it was. -/
def turn (session : Session config) (next : Turn) : Session config :=
  match h : (next.exchange.verify ⟨config, session.seen, next.now⟩).result with
  | .ok report =>
    ⟨session.seen.after report,
      ⟨session.seen, next.now, next.exchange, report, h⟩ :: session.accepted⟩
  | .error _ => session

def run (config : Config G) (turns : List Turn) : Session config := turns.foldl turn start

/-- The memory of a session goes through exchanges as the client's memory does. -/
theorem seen_turn (session : Session config) (next : Turn) :
    (session.turn next).seen = next.exchange.next ⟨config, session.seen, next.now⟩ := by
  unfold turn
  split
  · rename_i report h
    simp only [Exchange.next, h]
  · rename_i error h
    simp only [Exchange.next, h]

/-- What the accepted exchanges show, the latest first. -/
def reports (session : Session config) : List Report := session.accepted.map (·.report)

/-- A turn adds the report of its exchange, or none. -/
theorem reports_turn (session : Session config) (next : Turn) :
    (session.turn next).reports = session.reports ∨
      ∃ report, (next.exchange.verify ⟨config, session.seen, next.now⟩).result = .ok report ∧
        (session.turn next).reports = report :: session.reports ∧
        (session.turn next).seen = session.seen.after report := by
  unfold turn
  split
  · rename_i report h
    exact .inr ⟨report, h, rfl, rfl⟩
  · exact .inl rfl

/-- If both of two exchanges are accepted, the second is verified with what is remembered of the
first. -/
theorem verify_of_reports_pair {first second : Turn} {report report' : Report}
    (h : (run config [first, second]).reports = [report', report]) :
    (second.exchange.verify ⟨config, LastSeen.empty.after report, second.now⟩).result =
      .ok report' := by
  have hrun : run config [first, second] = ((start.turn first).turn second) := rfl
  rw [hrun] at h
  rcases (start : Session config).reports_turn first with hkept | ⟨early, -, hearly, hseen⟩
  · rcases (start.turn first : Session config).reports_turn second with hsame | ⟨late, -, hlate, -⟩
    · rw [hsame, hkept] at h
      cases h
    · rw [hlate, hkept] at h
      cases h
  · rcases (start.turn first : Session config).reports_turn second with
      hsame | ⟨late, hverify, hlate, -⟩
    · rw [hsame, hearly] at h
      cases h
    · rw [hlate, hearly] at h
      cases h
      rw [hseen] at hverify
      exact hverify

def heads (session : Session config) : List VerifiedTreeHead := session.reports.map (·.head)

def values (session : Session config) : List VerifiedValue := session.reports.flatMap (·.values)

end Session

/-! ## What an acceptance shows -/

theorem LastSeen.last_after (seen : LastSeen) (report : Report) :
    (seen.after report).last = some report.head := by
  cases report <;> rfl

theorem LastSeen.distinguished_after (seen : LastSeen) (report : Report) :
    (seen.after report).distinguished = some report.head ∨
      (seen.after report).distinguished = seen.distinguished := by
  cases report with
  | distinguished head => exact .inl rfl
  | search result => exact .inr rfl
  | monitor result => exact .inr rfl

/-- The head of an accepted exchange is remembered as the last one.  Only if the exchange was about
the distinguished key, it is remembered as the distinguished one as well. -/
theorem Exchange.after_of_verify {exchange : Exchange} {trust : Trust G} {report : Report}
    (h : (exchange.verify trust).result = .ok report) (seen : LastSeen) :
    seen.after report =
      match exchange.topic with
      | .distinguished => seen.acceptDistinguished report.head
      | .search => seen.accept report.head
      | .monitor => seen.accept report.head := by
  unfold verify at h
  rw [Attempt.result_recordError] at h
  cases exchange with
  | distinguished request response =>
    obtain ⟨head, -, rfl⟩ := Attempt.result_map_eq_ok_iff.mp h
    rfl
  | search request response =>
    obtain ⟨result, -, rfl⟩ := Attempt.result_map_eq_ok_iff.mp h
    rfl
  | monitor request response =>
    obtain ⟨result, -, rfl⟩ := Attempt.result_map_eq_ok_iff.mp h
    rfl

namespace Acceptance

variable {config : Config G}

theorem treeSize_pos (acceptance : Acceptance config) :
    1 ≤ acceptance.report.head.treeSize.toNat :=
  (Exchange.head_of_verify acceptance.verified).2

theorem follows_last (acceptance : Acceptance config) {earlier : VerifiedTreeHead}
    (h : acceptance.seen.last = some earlier) :
    acceptance.report.head.Follows earlier acceptance.exchange.treeHead.consistencyToLast :=
  (FullTreeHead.follows_of_verify (Exchange.head_of_verify acceptance.verified).1).2.1 earlier h

theorem follows_distinguished (acceptance : Acceptance config) {earlier : VerifiedTreeHead}
    (h : acceptance.seen.distinguished = some earlier) :
    acceptance.report.head.Follows earlier
      acceptance.exchange.treeHead.consistencyToDistinguished :=
  (FullTreeHead.follows_of_verify (Exchange.head_of_verify acceptance.verified).1).2.2 earlier h

/-- The byte strings that are hashed when the head is proven to extend the last one. -/
def consistencyMessages (acceptance : Acceptance config) : List Bytes :=
  match acceptance.seen.last with
  | none => []
  | some earlier =>
    acceptance.report.head.extensionMessages earlier
      acceptance.exchange.treeHead.consistencyToLast

theorem consistencyMessages_eq (acceptance : Acceptance config) {earlier : VerifiedTreeHead}
    (h : acceptance.seen.last = some earlier) :
    acceptance.consistencyMessages =
      acceptance.report.head.extensionMessages earlier
        acceptance.exchange.treeHead.consistencyToLast := by
  rw [consistencyMessages, h]

end Acceptance

/-! ## Histories -/

/-- What is remembered after some acceptances, the latest first, each of which was made with what
was remembered after the ones before it. -/
inductive History {config : Config G} : LastSeen → List (Acceptance config) → Prop where
  | start : History .empty []
  | accept (acceptance : Acceptance config) {past : List (Acceptance config)}
      (hpast : History acceptance.seen past) :
      History (acceptance.seen.after acceptance.report) (acceptance :: past)

namespace History

variable {config : Config G} {seen : LastSeen} {accepted : List (Acceptance config)}

theorem turn {session : Session config} (h : History session.seen session.accepted)
    (next : Turn) : History (session.turn next).seen (session.turn next).accepted := by
  unfold Session.turn
  split
  · rename_i report hreport
    exact .accept ⟨session.seen, next.now, next.exchange, report, hreport⟩ h
  · exact h

theorem run (config : Config G) (turns : List Turn) :
    History (Session.run config turns).seen (Session.run config turns).accepted := by
  have hrun : ∀ session : Session config, History session.seen session.accepted →
      History (turns.foldl Session.turn session).seen
        (turns.foldl Session.turn session).accepted := by
    induction turns with
    | nil => exact fun session h => h
    | cons next rest ih => exact fun session h => ih (session.turn next) (h.turn next)
  exact hrun .start .start

theorem last_eq (h : History seen accepted) :
    seen.last = (accepted.map (·.report.head)).head? := by
  cases h with
  | start => rfl
  | accept acceptance hpast => exact LastSeen.last_after acceptance.seen acceptance.report

/-- A head that is remembered is not that of an empty tree. -/
theorem treeSize_ne_zero_of_last (h : History seen accepted) {head : VerifiedTreeHead}
    (hlast : seen.last = some head) : head.treeSize ≠ 0 := by
  cases h with
  | start => cases hlast
  | accept acceptance hpast =>
    cases (LastSeen.last_after acceptance.seen acceptance.report).symm.trans hlast
    intro hzero
    have hpos := acceptance.treeSize_pos
    simp [hzero] at hpos

end History

theorem Session.last_run (config : Config G) (turns : List Turn) :
    (run config turns).seen.last = (run config turns).heads.head? := by
  rw [heads, reports, List.map_map]
  exact (History.run config turns).last_eq

end KeyTransparency
