import Askl.Library.Runs
import Mathlib.Data.List.Basic
import Mathlib.Tactic.Common

/-!
# Requests and answers over a network that may lose them

A client sends requests to a server that others use as well.  A request is worked on at any
later time or never, in one transaction or in several, and its answer may never arrive.  The
client does not know which of its requests are still under way, and may send one again.

What the client can rely on is laid down in a contract: what holds of the server while a
request is under way, and what holds of it once the request has been answered.  Both have to
survive everything that may happen at the server in the meantime, except for requests that
interfere; such a request must not be under way when another is sent.

## Main definitions

* `Service` — how a server works on requests, and what others do to it.
* `Net`, `NetStep` — the server with the requests and answers under way, and what happens there.
* `Terms`, `Contract`, `Contract.Holds` — what requests require and answers ensure.
* `System`, `Step` — a client that acts on answers, and the network.
* `Watch` — what holds from some time on, whatever is under way by then.

## Main results

* `Contract.Holds.netStep`, `Contract.Holds.send` — the contract is kept.
* `NetStep.stable` — what no request under way destroys stays.
* `invariant_of_run` — **the invariant rule for a client and its server.**
* `holds_of_sent` — the contract of clients that may send anything, over the requests they sent.
* `Watch.of_run` — **the rule for requests sent from some time on.**
-/

namespace Exchange

open Relation

variable {σ Req Job Rep κ ε : Type*}

/-! ### The network -/

/-- How a server works on requests: the job a request starts as, one transaction of a job, after
which there is another job or an answer, and what others do to the server. -/
structure Service (σ Req Job Rep : Type*) where
  start : Req → Job
  serve : σ → Job → σ → Job ⊕ Rep → Prop
  others : σ → σ → Prop

/-- The server, the requests sent so far, and the jobs and answers under way with the positions
of their requests. -/
structure Net (σ Req Job Rep : Type*) where
  server : σ
  sent : List Req
  pending : List (ℕ × Job)
  replies : List (ℕ × Rep)

variable {S : Service σ Req Job Rep}

/-- Send a request. -/
def Net.send (S : Service σ Req Job Rep) (net : Net σ Req Job Rep) (r : Req) :
    Net σ Req Job Rep :=
  { net with
    sent := net.sent ++ [r]
    pending := net.pending ++ [(net.sent.length, S.start r)] }

/-- Send a request, if there is one. -/
def Net.sendOpt (S : Service σ Req Job Rep) (net : Net σ Req Job Rep) : Option Req →
    Net σ Req Job Rep
  | none => net
  | some r => net.send S r

@[simp] theorem server_sendOpt (net : Net σ Req Job Rep) (r : Option Req) :
    (net.sendOpt S r).server = net.server := by
  cases r <;> rfl

@[simp] theorem sent_sendOpt (net : Net σ Req Job Rep) (r : Option Req) :
    (net.sendOpt S r).sent = net.sent ++ r.toList := by
  cases r
  · exact (List.append_nil _).symm
  · rfl

/-- The jobs of other requests. -/
def Net.without (net : Net σ Req Job Rep) (tag : ℕ) : List (ℕ × Job) :=
  net.pending.filter (·.1 != tag)

/-- What happens between the client and the server. -/
inductive NetStep (S : Service σ Req Job Rep) : Net σ Req Job Rep → Net σ Req Job Rep → Prop
  /-- A transaction that leaves more to do. -/
  | work {net : Net σ Req Job Rep} {tag : ℕ} {j j' : Job} {s' : σ} (hj : (tag, j) ∈ net.pending)
      (hserve : S.serve net.server j s' (.inl j')) :
      NetStep S net { net with server := s', pending := (tag, j') :: net.without tag }
  /-- A transaction that ends with an answer. -/
  | answer {net : Net σ Req Job Rep} {tag : ℕ} {j : Job} {s' : σ} {rep : Rep}
      (hj : (tag, j) ∈ net.pending) (hserve : S.serve net.server j s' (.inr rep)) :
      NetStep S net
        { net with server := s', pending := net.without tag, replies := (tag, rep) :: net.replies }
  /-- A request is lost, or the server stops working on it. -/
  | lose {net : Net σ Req Job Rep} (tag : ℕ) :
      NetStep S net { net with pending := net.without tag }
  | others {net : Net σ Req Job Rep} {s' : σ} (h : S.others net.server s') :
      NetStep S net { net with server := s' }

theorem NetStep.sent_eq {net net' : Net σ Req Job Rep} (h : NetStep S net net') :
    net'.sent = net.sent := by
  cases h <;> rfl

theorem mem_without {net : Net σ Req Job Rep} {tag : ℕ} {p : ℕ × Job} :
    p ∈ net.without tag ↔ p ∈ net.pending ∧ p.1 ≠ tag := by
  simp [Net.without]

/-- Requests that were sent before keep their positions. -/
theorem getElem?_send {net : Net σ Req Job Rep} {r r' : Req} {tag : ℕ}
    (h : net.sent[tag]? = some r') : (net.send S r).sent[tag]? = some r' := by
  obtain ⟨hlt, -⟩ := List.getElem?_eq_some_iff.mp h
  show (net.sent ++ [r])[tag]? = some r'
  rw [List.getElem?_append_left hlt]
  exact h

/-! ### Contracts -/

/-- The terms of a contract: what holds of the server at any time, what it takes to send a
request, what holds while a job of a request is under way, and what an answer tells.  A request
that interferes with another need not keep what holds for this one. -/
structure Terms (σ Req Job Rep : Type*) where
  Inv : σ → Prop
  Requires : Req → σ → Prop
  Progress : Req → Job → σ → Prop
  Ensures : Req → Rep → σ → Prop
  Interferes : Req → Req → Prop

/-- What holds for a request survives the jobs that do not interfere with it, and all others. -/
structure Terms.Keeps (T : Terms σ Req Job Rep) (S : Service σ Req Job Rep) (r : Req)
    (P : σ → Prop) : Prop where
  serve : ∀ {r₀ j s s' out}, T.Inv s → T.Requires r s → P s → T.Requires r₀ s →
    T.Progress r₀ j s → ¬T.Interferes r₀ r → S.serve s j s' out → P s'
  others : ∀ {s s'}, T.Inv s → T.Requires r s → P s → S.others s s' → P s'

/-- A contract of a service: its terms are kept. -/
structure Contract (S : Service σ Req Job Rep) extends Terms σ Req Job Rep where
  start : ∀ {r s}, Inv s → Requires r s → Progress r (S.start r) s
  inv_serve : ∀ {r j s s' out}, Inv s → Requires r s → Progress r j s → S.serve s j s' out → Inv s'
  inv_others : ∀ {s s'}, Inv s → S.others s s' → Inv s'
  work : ∀ {r j s s' j'}, Inv s → Requires r s → Progress r j s → S.serve s j s' (.inl j') →
    Progress r j' s'
  answer : ∀ {r j s s' rep}, Inv s → Requires r s → Progress r j s → S.serve s j s' (.inr rep) →
    Ensures r rep s'
  requires : ∀ r, toTerms.Keeps S r (Requires r)
  progress : ∀ r j, toTerms.Keeps S r (Progress r j)
  ensures : ∀ r rep, toTerms.Keeps S r (Ensures r rep)

namespace Contract

variable (K : Contract S)

/-- The contract of all requests sent so far. -/
structure Holds (net : Net σ Req Job Rep) : Prop where
  inv : K.Inv net.server
  requires : ∀ r ∈ net.sent, K.Requires r net.server
  pending : ∀ p ∈ net.pending, ∃ r, net.sent[p.1]? = some r ∧ K.Progress r p.2 net.server
  compatible : ∀ p ∈ net.pending, ∀ r₀, net.sent[p.1]? = some r₀ → ∀ r ∈ net.sent,
    ¬K.Interferes r₀ r
  replies : ∀ p ∈ net.replies, ∃ r, net.sent[p.1]? = some r ∧ K.Ensures r p.2 net.server
  answered : ∀ p ∈ net.replies, ∀ j, (p.1, j) ∉ net.pending

/-- A request may be sent: what it requires holds, and neither it nor any request under way
interferes. -/
structure Admits (net : Net σ Req Job Rep) (r : Req) : Prop where
  requires : K.Requires r net.server
  quiet : ∀ p ∈ net.pending, ∀ r₀, net.sent[p.1]? = some r₀ → ¬K.Interferes r₀ r
  harmless : ∀ r' ∈ net.sent, ¬K.Interferes r r'
  self : ¬K.Interferes r r

variable {K} {net net' : Net σ Req Job Rep}

/-- Nothing has been sent yet. -/
theorem holds_initial {s : σ} (hs : K.Inv s) : K.Holds ⟨s, [], [], []⟩ :=
  ⟨hs, List.forall_mem_nil _, List.forall_mem_nil _, List.forall_mem_nil _, List.forall_mem_nil _,
    List.forall_mem_nil _⟩

/-- The request of a job under way. -/
theorem Holds.exists_request (h : K.Holds net) {tag : ℕ} {j : Job} (hj : (tag, j) ∈ net.pending) :
    ∃ r, net.sent[tag]? = some r ∧ r ∈ net.sent ∧ K.Progress r j net.server := by
  obtain ⟨r, hr, hprogress⟩ := h.pending _ hj
  exact ⟨r, hr, List.mem_of_getElem? hr, hprogress⟩

/-- What survives all that happens at the server, some jobs under way being done with. -/
theorem Holds.change (h : K.Holds net) {s' : σ} {pending : List (ℕ × Job)} (hinv : K.Inv s')
    (hsub : ∀ p ∈ pending, ∃ j, (p.1, j) ∈ net.pending)
    (hkeeps : ∀ r ∈ net.sent, ∀ P, K.Keeps S r P → P net.server → P s')
    (hpending : ∀ p ∈ pending, p ∈ net.pending ∨
      ∃ r, net.sent[p.1]? = some r ∧ K.Progress r p.2 s') :
    K.Holds { net with server := s', pending := pending } where
  inv := hinv
  requires r hr := hkeeps r hr _ (K.requires r) (h.requires r hr)
  pending p hp := by
    rcases hpending p hp with hp | hp
    · obtain ⟨r, hr, hprogress⟩ := h.pending p hp
      exact ⟨r, hr, hkeeps r (List.mem_of_getElem? hr) _ (K.progress r p.2) hprogress⟩
    · exact hp
  compatible p hp := by
    obtain ⟨j, hj⟩ := hsub p hp
    exact h.compatible (p.1, j) hj
  replies p hp := by
    obtain ⟨r, hr, hensures⟩ := h.replies p hp
    exact ⟨r, hr, hkeeps r (List.mem_of_getElem? hr) _ (K.ensures r p.2) hensures⟩
  answered p hp j hj := by
    obtain ⟨i, hi⟩ := hsub _ hj
    exact h.answered p hp i hi

/-- What a transaction keeps. -/
theorem Holds.keeps_serve (h : K.Holds net) {tag : ℕ} {j : Job} {s' : σ} {out : Job ⊕ Rep}
    (hj : (tag, j) ∈ net.pending) (hserve : S.serve net.server j s' out) :
    ∀ r ∈ net.sent, ∀ P, K.Keeps S r P → P net.server → P s' := by
  intro r hr P hkeeps hP
  obtain ⟨r₀, hr₀, hmem, hprogress⟩ := h.exists_request hj
  exact hkeeps.serve h.inv (h.requires r hr) hP (h.requires r₀ hmem) hprogress
    (h.compatible _ hj r₀ hr₀ r hr) hserve

/-- **What happens at the server keeps the contract.** -/
theorem Holds.netStep (h : K.Holds net) (hstep : NetStep S net net') : K.Holds net' := by
  cases hstep with
  | @work tag j j' s' hj hserve =>
    obtain ⟨r₀, hr₀, hmem, hprogress⟩ := h.exists_request hj
    refine h.change (K.inv_serve h.inv (h.requires r₀ hmem) hprogress hserve) ?_
      (h.keeps_serve hj hserve) ?_
    · intro p hp
      rcases List.mem_cons.mp hp with rfl | hp
      · exact ⟨j, hj⟩
      · exact ⟨p.2, (mem_without.mp hp).1⟩
    · intro p hp
      rcases List.mem_cons.mp hp with rfl | hp
      · exact Or.inr ⟨r₀, hr₀, K.work h.inv (h.requires r₀ hmem) hprogress hserve⟩
      · exact Or.inl (mem_without.mp hp).1
  | @answer tag j s' rep hj hserve =>
    obtain ⟨r₀, hr₀, hmem, hprogress⟩ := h.exists_request hj
    have hchange : K.Holds { net with server := s', pending := net.without tag } :=
      h.change (K.inv_serve h.inv (h.requires r₀ hmem) hprogress hserve)
        (fun p hp => ⟨p.2, (mem_without.mp hp).1⟩) (h.keeps_serve hj hserve)
        fun p hp => Or.inl (mem_without.mp hp).1
    refine ⟨hchange.inv, hchange.requires, hchange.pending, hchange.compatible, ?_, ?_⟩
    · intro p hp
      rcases List.mem_cons.mp hp with rfl | hp
      · exact ⟨r₀, hr₀, K.answer h.inv (h.requires r₀ hmem) hprogress hserve⟩
      · exact hchange.replies p hp
    · intro p hp i hi
      rcases List.mem_cons.mp hp with rfl | hp
      · exact (mem_without.mp hi).2 rfl
      · exact hchange.answered p hp i hi
  | lose tag =>
    exact h.change h.inv (fun p hp => ⟨p.2, (mem_without.mp hp).1⟩) (fun _ _ _ _ hP => hP)
      fun p hp => Or.inl (mem_without.mp hp).1
  | others hothers =>
    refine h.change (K.inv_others h.inv hothers) (fun p hp => ⟨p.2, hp⟩) ?_ fun p hp => Or.inl hp
    intro r hr P hkeeps hP
    exact hkeeps.others h.inv (h.requires r hr) hP hothers

/-- **A request that may be sent keeps the contract.** -/
theorem Holds.send (h : K.Holds net) {r : Req} (hr : K.Admits net r) :
    K.Holds (net.send S r) := by
  have hnew : (net.sent ++ [r])[net.sent.length]? = some r := by simp
  refine ⟨h.inv, ?_, ?_, ?_, ?_, ?_⟩
  · intro r' hr'
    rcases List.mem_append.mp hr' with hr' | hr'
    · exact h.requires r' hr'
    · obtain rfl := List.mem_singleton.mp hr'
      exact hr.requires
  · intro p hp
    rcases List.mem_append.mp hp with hp | hp
    · obtain ⟨r', hr', hprogress⟩ := h.pending p hp
      exact ⟨r', getElem?_send hr', hprogress⟩
    · obtain rfl := List.mem_singleton.mp hp
      exact ⟨r, hnew, K.start h.inv hr.requires⟩
  · intro p hp r₀ hr₀ r' hr'
    -- the request of the job was under way, or it is the new one
    have hr₀' : (∃ q ∈ net.pending, net.sent[q.1]? = some r₀) ∨ r₀ = r := by
      rcases List.mem_append.mp hp with hp | hp
      · obtain ⟨r₁, hr₁, -⟩ := h.pending p hp
        obtain rfl := Option.some.inj ((getElem?_send hr₁).symm.trans hr₀)
        exact Or.inl ⟨p, hp, hr₁⟩
      · obtain rfl := List.mem_singleton.mp hp
        exact Or.inr (Option.some.inj (hr₀.symm.trans hnew))
    rcases hr₀' with ⟨q, hq, hq₀⟩ | rfl
    · rcases List.mem_append.mp hr' with hr' | hr'
      · exact h.compatible q hq r₀ hq₀ r' hr'
      · obtain rfl := List.mem_singleton.mp hr'
        exact hr.quiet q hq r₀ hq₀
    · rcases List.mem_append.mp hr' with hr' | hr'
      · exact hr.harmless r' hr'
      · obtain rfl := List.mem_singleton.mp hr'
        exact hr.self
  · intro p hp
    obtain ⟨r', hr', hensures⟩ := h.replies p hp
    exact ⟨r', getElem?_send hr', hensures⟩
  · intro p hp j hj
    rcases List.mem_append.mp hj with hj | hj
    · exact h.answered p hp j hj
    · -- an answer belongs to a request that was sent before
      obtain ⟨r', hr', -⟩ := h.replies p hp
      obtain ⟨hlt, -⟩ := List.getElem?_eq_some_iff.mp hr'
      obtain ⟨heq, -⟩ := Prod.mk.inj (List.mem_singleton.mp hj)
      omega

end Contract

/-- **What no request under way destroys stays.**  `Calm` singles out requests that keep a
property of the server. -/
theorem NetStep.stable {K : Contract S} {net net' : Net σ Req Job Rep} (h : K.Holds net)
    (hstep : NetStep S net net') {P : σ → Prop} {Calm : Req → Prop}
    (hcalm : ∀ p ∈ net.pending, ∀ r, net.sent[p.1]? = some r → Calm r)
    (hserve : ∀ {r j s s' out}, K.Inv s → P s → K.Requires r s → K.Progress r j s → Calm r →
      S.serve s j s' out → P s')
    (hothers : ∀ {s s'}, K.Inv s → P s → S.others s s' → P s') (hP : P net.server) :
    P net'.server := by
  have hjob : ∀ {tag j s' out}, (tag, j) ∈ net.pending → S.serve net.server j s' out → P s' := by
    intro tag j s' out hj hs'
    obtain ⟨r, hr, hmem, hprogress⟩ := h.exists_request hj
    exact hserve h.inv hP (h.requires r hmem) hprogress (hcalm _ hj r hr) hs'
  cases hstep with
  | work hj hs' => exact hjob hj hs'
  | answer hj hs' => exact hjob hj hs'
  | lose => exact hP
  | others hs' => exact hothers h.inv hP hs'

/-- The requests under way were under way before. -/
theorem NetStep.exists_pending {net net' : Net σ Req Job Rep} (hstep : NetStep S net net')
    {p : ℕ × Job} (hp : p ∈ net'.pending) : ∃ j, (p.1, j) ∈ net.pending := by
  cases hstep with
  | @work tag j j' s' hj hserve =>
    rcases List.mem_cons.mp hp with rfl | hp
    · exact ⟨j, hj⟩
    · exact ⟨p.2, (mem_without.mp hp).1⟩
  | answer hj hserve => exact ⟨p.2, (mem_without.mp hp).1⟩
  | lose tag => exact ⟨p.2, (mem_without.mp hp).1⟩
  | others h => exact ⟨p.2, hp⟩

/-! ### A client -/

/-- A client and its network. -/
structure System (σ Req Job Rep κ : Type*) where
  client : κ
  net : Net σ Req Job Rep

/-- What a client acts on: an answer to the request at a position, or something of its own, such
as a timeout. -/
abbrev Event (Rep ε : Type*) := (ℕ × Rep) ⊕ ε

/-- An answer has to be under way. -/
def Net.Enables (net : Net σ Req Job Rep) : Event Rep ε → Prop
  | .inl p => p ∈ net.replies
  | .inr _ => True

/-- A client acts on events and sends at most one request at a time, whose position it knows. -/
abbrev Client (Req Rep κ ε : Type*) := κ → ℕ → Event Rep ε → Option (κ × Option Req)

/-- A step of the network or of the client. -/
inductive Step (S : Service σ Req Job Rep) (act : Client Req Rep κ ε) :
    System σ Req Job Rep κ → System σ Req Job Rep κ → Prop
  | net {c : κ} {net net' : Net σ Req Job Rep} (h : NetStep S net net') :
      Step S act ⟨c, net⟩ ⟨c, net'⟩
  | act {c c' : κ} {net : Net σ Req Job Rep} {e : Event Rep ε} {r : Option Req}
      (henabled : net.Enables e) (hact : act c net.sent.length e = some (c', r)) :
      Step S act ⟨c, net⟩ ⟨c', net.sendOpt S r⟩

/-- **The invariant rule for a client and its server.**  What the contract gives may be used of
every answer that the client acts on. -/
theorem invariant_of_run {act : Client Req Rep κ ε} (K : Contract S)
    {C : κ → Net σ Req Job Rep → Prop}
    (hnet : ∀ {c net net'}, K.Holds net → C c net → NetStep S net net' → C c net')
    (hact : ∀ {c net e c' r}, K.Holds net → C c net → net.Enables e →
      act c net.sent.length e = some (c', r) →
        (∀ r' ∈ r, K.Admits net r') ∧ C c' (net.sendOpt S r))
    {a b : System σ Req Job Rep κ} (hrun : ReflTransGen (Step S act) a b)
    (ha : K.Holds a.net) (hC : C a.client a.net) : K.Holds b.net ∧ C b.client b.net := by
  refine Runs.invariant_of_run (I := fun a => K.Holds a.net ∧ C a.client a.net) ?_ hrun ⟨ha, hC⟩
  rintro a b ⟨hholds, hclient⟩ hstep
  cases hstep with
  | net h => exact ⟨hholds.netStep h, hnet hholds hclient h⟩
  | @act c c' net e r henabled h =>
    obtain ⟨hadmits, hclient'⟩ := hact hholds hclient henabled h
    refine ⟨?_, hclient'⟩
    cases r with
    | none => exact hholds
    | some r => exact hholds.send (hadmits r rfl)

/-- Requests that were sent stay sent. -/
theorem Step.sent_prefix {act : Client Req Rep κ ε} {a b : System σ Req Job Rep κ}
    (h : Step S act a b) : a.net.sent <+: b.net.sent := by
  cases h with
  | net h => exact h.sent_eq ▸ List.prefix_refl _
  | act henabled hact =>
    rw [sent_sendOpt]
    exact List.prefix_append _ _

/-- **Where no request interferes, the contract may rest on the requests that have been sent by
the end.** -/
theorem holds_of_sent {act : Client Req Rep κ ε} (K : Contract S)
    (hquiet : ∀ r r', ¬K.Interferes r r') {a b : System σ Req Job Rep κ}
    (hrun : ReflTransGen (Step S act) a b) (ha : K.Holds a.net)
    (hrequires : ∀ r ∈ b.net.sent, ∀ s, K.Requires r s) : K.Holds b.net := by
  induction hrun with
  | refl => exact ha
  | tail _ hstep ih =>
    have hsent := hstep.sent_prefix.subset
    have hholds := ih fun r hr => hrequires r (hsent hr)
    cases hstep with
    | net h => exact hholds.netStep h
    | @act c c' net e r henabled hact =>
      cases r with
      | none => exact hholds
      | some r =>
        have hr : r ∈ (net.send S r).sent := List.mem_append_right _ List.mem_cons_self
        exact hholds.send ⟨hrequires r hr _, fun _ _ _ _ => hquiet _ _, fun _ _ => hquiet _ _,
          hquiet _ _⟩

/-! ### From some time on -/

/-- A transaction of any job, or what others do. -/
def Service.Next (S : Service σ Req Job Rep) (s s' : σ) : Prop :=
  (∃ j out, S.serve s j s' out) ∨ S.others s s'

/-- What holds of the server from some time on, and of the requests that are sent then; the jobs
that are under way by then do not disturb it. -/
structure Watch (S : Service σ Req Job Rep) where
  Inv : σ → Prop
  Doing : Req → Job → σ → Prop
  Tells : Req → Rep → σ → Prop
  start : ∀ {r s}, Inv s → Doing r (S.start r) s
  work : ∀ {r j s s' j'}, Inv s → Doing r j s → S.serve s j s' (.inl j') → Doing r j' s'
  answer : ∀ {r j s s' rep}, Inv s → Doing r j s → S.serve s j s' (.inr rep) → Tells r rep s'
  inv_next : ∀ {s s'}, Inv s → S.Next s s' → Inv s'
  doing_next : ∀ {r j s s'}, Inv s → Doing r j s → S.Next s s' → Doing r j s'
  tells_next : ∀ {r rep s s'}, Inv s → Tells r rep s → S.Next s s' → Tells r rep s'

namespace Watch

variable {W : Watch S} {n : ℕ} {net net' : Net σ Req Job Rep}

/-- What is known of the requests from a position on. -/
structure Since (W : Watch S) (n : ℕ) (net : Net σ Req Job Rep) : Prop where
  inv : W.Inv net.server
  le : n ≤ net.sent.length
  pending : ∀ p ∈ net.pending, p.1 < net.sent.length ∧
    (n ≤ p.1 → ∃ r, net.sent[p.1]? = some r ∧ W.Doing r p.2 net.server)
  replies : ∀ p ∈ net.replies, p.1 < net.sent.length ∧
    (n ≤ p.1 → ∃ r, net.sent[p.1]? = some r ∧ W.Tells r p.2 net.server)

/-- The server does something, and the job of one request goes on. -/
theorem Since.next (h : W.Since n net) {s' : σ} (hnext : S.Next net.server s')
    {pending : List (ℕ × Job)} (hpending : ∀ p ∈ pending, p ∈ net.pending ∨
      p.1 < net.sent.length ∧ (n ≤ p.1 → ∃ r, net.sent[p.1]? = some r ∧ W.Doing r p.2 s')) :
    W.Since n { net with server := s', pending := pending } where
  inv := W.inv_next h.inv hnext
  le := h.le
  pending p hp := by
    rcases hpending p hp with hp | hp
    · obtain ⟨hlt, hdoing⟩ := h.pending p hp
      refine ⟨hlt, fun hn => ?_⟩
      obtain ⟨r, hr, hr'⟩ := hdoing hn
      exact ⟨r, hr, W.doing_next h.inv hr' hnext⟩
    · exact hp
  replies p hp := by
    obtain ⟨hlt, htells⟩ := h.replies p hp
    refine ⟨hlt, fun hn => ?_⟩
    obtain ⟨r, hr, hr'⟩ := htells hn
    exact ⟨r, hr, W.tells_next h.inv hr' hnext⟩

theorem Since.netStep (h : W.Since n net) (hstep : NetStep S net net') : W.Since n net' := by
  cases hstep with
  | @work tag j j' s' hj hserve =>
    obtain ⟨hlt, hdoing⟩ := h.pending _ hj
    refine h.next (Or.inl ⟨j, _, hserve⟩) fun p hp => ?_
    rcases List.mem_cons.mp hp with rfl | hp
    · refine Or.inr ⟨hlt, fun hn => ?_⟩
      obtain ⟨r, hr, hr'⟩ := hdoing hn
      exact ⟨r, hr, W.work h.inv hr' hserve⟩
    · exact Or.inl (mem_without.mp hp).1
  | @answer tag j s' rep hj hserve =>
    obtain ⟨hlt, hdoing⟩ := h.pending _ hj
    have hnext := h.next (Or.inl ⟨j, _, hserve⟩) fun p (hp : p ∈ net.without tag) =>
      Or.inl (mem_without.mp hp).1
    refine ⟨hnext.inv, hnext.le, hnext.pending, fun p hp => ?_⟩
    rcases List.mem_cons.mp hp with rfl | hp
    · refine ⟨hlt, fun hn => ?_⟩
      obtain ⟨r, hr, hr'⟩ := hdoing hn
      exact ⟨r, hr, W.answer h.inv hr' hserve⟩
    · exact hnext.replies p hp
  | lose tag =>
    exact ⟨h.inv, h.le, fun p hp => h.pending p (mem_without.mp hp).1, h.replies⟩
  | others hothers => exact h.next (Or.inr hothers) fun p hp => Or.inl hp

theorem Since.send (h : W.Since n net) (r : Req) : W.Since n (net.send S r) := by
  have hlength : (net.sent ++ [r]).length = net.sent.length + 1 := by simp
  have hle := h.le
  refine ⟨h.inv, ?_, fun p hp => ?_, fun p hp => ?_⟩
  · show n ≤ (net.sent ++ [r]).length
    omega
  · show p.1 < (net.sent ++ [r]).length ∧ _
    rcases List.mem_append.mp hp with hp | hp
    · obtain ⟨hlt, hdoing⟩ := h.pending p hp
      refine ⟨by omega, fun hn => ?_⟩
      obtain ⟨r', hr', hr''⟩ := hdoing hn
      exact ⟨r', getElem?_send hr', hr''⟩
    · obtain rfl := List.mem_singleton.mp hp
      refine ⟨by simp, fun _ => ⟨r, ?_, W.start h.inv⟩⟩
      show (net.sent ++ [r])[net.sent.length]? = some r
      simp
  · show p.1 < (net.sent ++ [r]).length ∧ _
    obtain ⟨hlt, htells⟩ := h.replies p hp
    refine ⟨by omega, fun hn => ?_⟩
    obtain ⟨r', hr', hr''⟩ := htells hn
    exact ⟨r', getElem?_send hr', hr''⟩

/-- **The rule for requests sent from some time on.** -/
theorem of_run {act : Client Req Rep κ ε} {a b : System σ Req Job Rep κ}
    (hrun : ReflTransGen (Step S act) a b) (ha : W.Since n a.net) : W.Since n b.net := by
  refine Runs.invariant_of_run (I := fun a => W.Since n a.net) ?_ hrun ha
  intro a b h hstep
  cases hstep with
  | net hstep => exact h.netStep hstep
  | @act c c' net e r henabled hact =>
    cases r with
    | none => exact h
    | some r => exact h.send r

/-- Nothing in particular. -/
def idle (S : Service σ Req Job Rep) : Watch S where
  Inv _ := True
  Doing _ _ _ := True
  Tells _ _ _ := True
  start _ := trivial
  work _ _ _ := trivial
  answer _ _ _ := trivial
  inv_next _ _ := trivial
  doing_next _ _ _ := trivial
  tells_next _ _ _ := trivial

/-- The time from which on requests are watched may be any time of a run. -/
theorem since_of_run {act : Client Req Rep κ ε} {c : κ} {s : σ} {a : System σ Req Job Rep κ}
    (hrun : ReflTransGen (Step S act) ⟨c, s, [], [], []⟩ a) (ha : W.Inv a.net.server) :
    W.Since a.net.sent.length a.net := by
  have hidle : (idle S).Since 0 a.net :=
    of_run hrun ⟨trivial, le_rfl, List.forall_mem_nil _, List.forall_mem_nil _⟩
  refine ⟨ha, le_rfl, fun p hp => ?_, fun p hp => ?_⟩
  · have hlt := (hidle.pending p hp).1
    exact ⟨hlt, fun hn => by omega⟩
  · have hlt := (hidle.replies p hp).1
    exact ⟨hlt, fun hn => by omega⟩

end Watch

end Exchange
