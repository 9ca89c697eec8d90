import DistLabs.Schemes.Quorum
import Mathlib.Data.List.Basic
import Mathlib.Logic.Function.Basic

/-! # Replicated logs with one leader a term

    The design that a replicated log rests on, without messages, indices or compaction. Each member
    has a current term, a log and the part of the log that a crash leaves. A member stands in a term
    with a log, others vote for it if that log is at least as up to date as their own, and a
    majority of votes makes its log the leader log of the term, which then only grows. Members take
    prefixes of a leader log over and acknowledge what they hold. What a majority has acknowledged
    in the term of its last entry is chosen, and the main result is that chosen prefixes never
    disagree.

    The invariant is stated for `Choosable` prefixes: those that some majority has acknowledged, or
    may still acknowledge because it has not left the term. Unlike being chosen, this can only be
    lost, so what holds of a choosable prefix when a member votes or takes over a log keeps
    holding. -/

namespace DistLabs

/-- The state of the replicas `ι`, with terms in `τ` and log entries in `ε`. -/
structure Replicas (ι τ ε : Type*) where
  cur : ι → τ
  log : ι → List ε
  stable : ι → List ε
  lead : τ → Option (List ε)
  ask : τ → ι → Option (List ε)
  vote : τ → ι → ι → Prop
  ack : τ → ι → ℕ → Prop

namespace Replicas

variable {ι τ ε : Type*}

/-! ### Operations -/

section Operations

variable [DecidableEq ι] [DecidableEq τ]

/-- Member `v` enters term `T`. -/
def adopt (g : Replicas ι τ ε) (v : ι) (T : τ) : Replicas ι τ ε :=
  { g with cur := Function.update g.cur v T }

/-- Member `c` stands in its term with its log. -/
def stand (g : Replicas ι τ ε) (c : ι) : Replicas ι τ ε :=
  { g with ask := fun T c' => if T = g.cur c ∧ c' = c then some (g.log c) else g.ask T c' }

/-- Member `v` votes for `c` in term `T`. -/
def grant (g : Replicas ι τ ε) (T : τ) (v c : ι) : Replicas ι τ ε :=
  { g with vote := fun T' v' c' => T' = T ∧ v' = v ∧ c' = c ∨ g.vote T' v' c' }

/-- Member `c` leads its term. -/
def elect (g : Replicas ι τ ε) (c : ι) : Replicas ι τ ε :=
  { g with lead := Function.update g.lead (g.cur c) (some (g.log c)) }

/-- The leader `c` adds an entry. -/
def append (g : Replicas ι τ ε) (c : ι) (e : ε) : Replicas ι τ ε :=
  { g with
    log := Function.update g.log c (g.log c ++ [e])
    lead := Function.update g.lead (g.cur c) (some (g.log c ++ [e])) }

/-- Member `v` takes over the log `P` and saves it. -/
def accept (g : Replicas ι τ ε) (v : ι) (P : List ε) : Replicas ι τ ε :=
  { g with
    log := Function.update g.log v P
    stable := Function.update g.stable v P }

/-- Member `v` acknowledges the first `m` entries of the leader log of its term. -/
def acknowledge (g : Replicas ι τ ε) (v : ι) (m : ℕ) : Replicas ι τ ε :=
  { g with ack := fun T' v' m' => T' = g.cur v ∧ v' = v ∧ m' = m ∨ g.ack T' v' m' }

/-- Member `v` saves its log. -/
def save (g : Replicas ι τ ε) (v : ι) : Replicas ι τ ε :=
  { g with stable := Function.update g.stable v (g.log v) }

/-- A crash leaves member `v` what it has saved. -/
def lose (g : Replicas ι τ ε) (v : ι) : Replicas ι τ ε :=
  { g with log := Function.update g.log v (g.stable v) }

variable {g : Replicas ι τ ε} {c : ι}

omit [DecidableEq ι] in
theorem elect_lead {U : τ} {L : List ε} (h : (g.elect c).lead U = some L) :
    U = g.cur c ∧ L = g.log c ∨ g.lead U = some L := by
  rcases eq_or_ne U (g.cur c) with rfl | hne
  · simp only [Replicas.elect, Function.update_self, Option.some.injEq] at h
    exact .inl ⟨rfl, h.symm⟩
  · simp only [Replicas.elect, Function.update_of_ne hne] at h
    exact .inr h

omit [DecidableEq ι] in
/-- An election in a term without a leader keeps every leader log. -/
theorem elect_lead_of_fresh (hfresh : g.lead (g.cur c) = none) {U : τ} {L : List ε}
    (h : g.lead U = some L) : (g.elect c).lead U = some L := by
  have hne : U ≠ g.cur c := by
    rintro rfl
    rw [hfresh] at h; cases h
  simp only [Replicas.elect, Function.update_of_ne hne, h]

/-- The leader log of the term is the only one that an append changes. -/
theorem append_lead {U : τ} {L : List ε} {e : ε} (h : (g.append c e).lead U = some L) :
    U = g.cur c ∧ L = g.log c ++ [e] ∨ g.lead U = some L := by
  rcases eq_or_ne U (g.cur c) with rfl | hne
  · simp only [Replicas.append, Function.update_self, Option.some.injEq] at h
    exact .inl ⟨rfl, h.symm⟩
  · simp only [Replicas.append, Function.update_of_ne hne] at h
    exact .inr h

theorem append_lead_grows (hlead : g.lead (g.cur c) = some (g.log c)) (e : ε) (U : τ)
    (L : List ε) (hL : g.lead U = some L) :
    ∃ L', (g.append c e).lead U = some L' ∧ L <+: L' := by
  rcases eq_or_ne U (g.cur c) with rfl | hne
  · rw [hlead] at hL
    obtain rfl := Option.some.inj hL
    exact ⟨g.log c ++ [e], by simp [Replicas.append], List.prefix_append ..⟩
  · exact ⟨L, by simp [Replicas.append, hne, hL], List.prefix_refl L⟩

theorem append_log (g : Replicas ι τ ε) (c w : ι) (e : ε) :
    (g.append c e).log w = g.log w ∨ w = c ∧ (g.append c e).log w = g.log c ++ [e] := by
  rcases eq_or_ne w c with rfl | hne
  · exact .inr ⟨rfl, by simp [Replicas.append]⟩
  · exact .inl (by simp [Replicas.append, hne])

end Operations

/-! ### Growth -/

/-- Leader logs grow; what was asked, voted or acknowledged stays so. -/
structure Grows (g g' : Replicas ι τ ε) : Prop where
  lead : ∀ T L, g.lead T = some L → ∃ L', g'.lead T = some L' ∧ L <+: L'
  ask : ∀ T c L, g.ask T c = some L → g'.ask T c = some L
  vote : ∀ T v c, g.vote T v c → g'.vote T v c
  ack : ∀ T v m, g.ack T v m → g'.ack T v m

theorem Grows.refl (g : Replicas ι τ ε) : Grows g g :=
  ⟨fun _ L hL => ⟨L, hL, List.prefix_refl L⟩, fun _ _ _ => id, fun _ _ _ => id, fun _ _ _ => id⟩

theorem Grows.trans {g g' g'' : Replicas ι τ ε} (h : Grows g g') (h' : Grows g' g'') :
    Grows g g'' := by
  refine ⟨fun T L hL => ?_, fun T c L hL => h'.ask T c L (h.ask T c L hL),
    fun T v c hv => h'.vote T v c (h.vote T v c hv), fun T v m ha => h'.ack T v m (h.ack T v m ha)⟩
  obtain ⟨L', hL', hle⟩ := h.lead T L hL
  obtain ⟨L'', hL'', hle'⟩ := h'.lead T L' hL'
  exact ⟨L'', hL'', hle.trans hle'⟩

/-! ### Logs and what is chosen -/

/-- The log `L` is at least as up to date as `l`: its last entry has a larger term, or the same one
    and it is no shorter. -/
def UpToDate (tm : ε → τ) [LT τ] (L l : List ε) : Prop :=
  ∀ e, l.getLast? = some e →
    ∃ d, L.getLast? = some d ∧ (tm e < tm d ∨ tm e = tm d ∧ l.length ≤ L.length)

/-- Up to each of its entries, `X` is a prefix of the leader log of the entry's term. -/
def Coherent (tm : ε → τ) (g : Replicas ι τ ε) (X : List ε) : Prop :=
  ∀ k e, X[k]? = some e → ∃ L, g.lead (tm e) = some L ∧ X.take (k + 1) <+: L

/-- `P` is a part of the leader log of `T` that ends in an entry of `T`. -/
def Proposed (tm : ε → τ) (g : Replicas ι τ ε) (T : τ) (P : List ε) : Prop :=
  (∃ L, g.lead T = some L ∧ P <+: L) ∧ ∃ e, P.getLast? = some e ∧ tm e = T

variable {tm : ε → τ} {g g' : Replicas ι τ ε} {P L X : List ε}

/-- A prefix of a coherent log is coherent. -/
theorem Coherent.restrict (h : Coherent tm g L) (hP : P <+: L) : Coherent tm g P := by
  intro k e hk
  obtain ⟨hlt, -⟩ := List.getElem?_eq_some_iff.mp hk
  obtain ⟨t, rfl⟩ := hP
  obtain ⟨M, hM, htake⟩ := h k e (by rw [List.getElem?_append_left hlt, hk])
  rw [List.take_append_of_le_length (by omega)] at htake
  exact ⟨M, hM, htake⟩

/-- Leader logs that grow keep a log coherent. -/
theorem Coherent.mono (hlead : ∀ T L, g.lead T = some L → ∃ L', g'.lead T = some L' ∧ L <+: L')
    (h : Coherent tm g X) : Coherent tm g' X := by
  intro k e hk
  obtain ⟨L, hL, htake⟩ := h k e hk
  obtain ⟨L', hL', hle⟩ := hlead _ L hL
  exact ⟨L', hL', htake.trans hle⟩

/-- A coherent log is, as a whole, a prefix of the leader log of its last entry's term. -/
theorem Coherent.getLast (h : Coherent tm g X) {e : ε} (he : X.getLast? = some e) :
    ∃ L, g.lead (tm e) = some L ∧ X <+: L := by
  rw [List.getLast?_eq_getElem?] at he
  obtain ⟨hlt, -⟩ := List.getElem?_eq_some_iff.mp he
  obtain ⟨L, hL, htake⟩ := h _ e he
  rw [List.take_of_length_le (by omega)] at htake
  exact ⟨L, hL, htake⟩

/-- Log matching: two coherent logs with entries of one term at one place agree up to there. -/
theorem Coherent.take_eq {Y : List ε} (hX : Coherent tm g X) (hY : Coherent tm g Y) {k : ℕ}
    {e d : ε} (he : X[k]? = some e) (hd : Y[k]? = some d) (ht : tm e = tm d) :
    X.take (k + 1) = Y.take (k + 1) := by
  obtain ⟨L, hL, hXL⟩ := hX k e he
  obtain ⟨L', hL', hYL⟩ := hY k d hd
  rw [ht, hL'] at hL
  obtain rfl := Option.some.inj hL
  obtain ⟨hlt, -⟩ := List.getElem?_eq_some_iff.mp he
  obtain ⟨hlt', -⟩ := List.getElem?_eq_some_iff.mp hd
  have hlen : (X.take (k + 1)).length = (Y.take (k + 1)).length := by
    simp only [List.length_take]; omega
  exact (List.prefix_of_prefix_length_le hXL hYL hlen.le).eq_of_length hlen

variable [Fintype ι]

/-- A majority has acknowledged `P` in `T`. -/
def Chosen (tm : ε → τ) (g : Replicas ι τ ε) (T : τ) (P : List ε) : Prop :=
  Proposed tm g T P ∧ ∃ Q : Finset ι, Majority Q ∧ ∀ v ∈ Q, ∃ m, P.length ≤ m ∧ g.ack T v m

/-- A majority has acknowledged `P` in `T` or may still do so. -/
def Choosable (tm : ε → τ) [LE τ] (g : Replicas ι τ ε) (T : τ) (P : List ε) : Prop :=
  Proposed tm g T P ∧ ∃ Q : Finset ι, Majority Q ∧
    ∀ v ∈ Q, (∃ m, P.length ≤ m ∧ g.ack T v m) ∨ g.cur v ≤ T

/-- `P` is part of what was chosen by term `T`. -/
def Committed (tm : ε → τ) [LE τ] (g : Replicas ι τ ε) (T : τ) (P : List ε) : Prop :=
  P = [] ∨ ∃ U R, U ≤ T ∧ Chosen tm g U R ∧ P <+: R

/-! ### Steps -/

/-- The steps the design allows. -/
inductive Step [DecidableEq ι] [LinearOrder τ] (tm : ε → τ)
    (g : Replicas ι τ ε) : Replicas ι τ ε → Prop
  | adopt {v : ι} {T : τ} (cur : g.cur v ≤ T) : Step tm g (g.adopt v T)
  | stand {c : ι} (fresh : g.ask (g.cur c) c = none) : Step tm g (g.stand c)
  | grant {T : τ} {v c : ι} {L : List ε} (cur : g.cur v = T) (ask : g.ask T c = some L)
      (upToDate : UpToDate tm L (g.log v)) : Step tm g (g.grant T v c)
  | elect {c : ι} {Q : Finset ι} (fresh : g.lead (g.cur c) = none) (majority : Majority Q)
      (votes : ∀ v ∈ Q, v = c ∨ g.vote (g.cur c) v c)
      (ask : ∀ L, g.ask (g.cur c) c = some L → L <+: g.log c) : Step tm g (g.elect c)
  | append {c : ι} {e : ε} (lead : g.lead (g.cur c) = some (g.log c)) (term : tm e = g.cur c) :
      Step tm g (g.append c e)
  | accept {v : ι} {L P : List ε} (lead : g.lead (g.cur v) = some L) (part : P <+: L)
      (keep : ∀ R, R <+: g.log v → R <+: L → R <+: P) : Step tm g (g.accept v P)
  | acknowledge {v : ι} {L : List ε} {m : ℕ} (lead : g.lead (g.cur v) = some L)
      (le : m ≤ L.length) (held : L.take m <+: g.stable v) : Step tm g (g.acknowledge v m)
  | save {v : ι} : Step tm g (g.save v)
  | lose {v : ι} : Step tm g (g.lose v)

/-- Every member starts in term `T` with an empty log. -/
def init (T : τ) : Replicas ι τ ε :=
  { cur := fun _ => T
    log := fun _ => []
    stable := fun _ => []
    lead := fun _ => none
    ask := fun _ _ => none
    vote := fun _ _ _ => False
    ack := fun _ _ _ => False }

/-! ### The invariant -/

section Invariant

variable [LinearOrder τ] {T U : τ} {R : List ε}

/-- The invariant of the design. The last three fields are about choosable prefixes: who has
    acknowledged one holds it, the leader logs of later terms contain it, and so does the log of
    every candidate of a later term that someone who has acknowledged it votes for. -/
structure Inv (tm : ε → τ) (g : Replicas ι τ ε) : Prop where
  leadBound : ∀ {T L}, g.lead T = some L → ∀ e ∈ L, tm e ≤ T
  logBound : ∀ v, ∀ e ∈ g.log v, tm e ≤ g.cur v
  leadCoh : ∀ {T L}, g.lead T = some L → Coherent tm g L
  logCoh : ∀ v, Coherent tm g (g.log v)
  askCoh : ∀ {T c L}, g.ask T c = some L → Coherent tm g L
  stable : ∀ v, g.stable v <+: g.log v
  acks : ∀ {T v m}, g.ack T v m → T ≤ g.cur v ∧ ∃ L, g.lead T = some L ∧ m ≤ L.length
  held : ∀ {T v m L}, g.ack T v m → g.cur v = T → g.lead T = some L → L.take m <+: g.stable v
  majority : ∀ {T L}, g.lead T = some L → ∃ Q : Finset ι, Majority Q ∧ ∀ v ∈ Q, T ≤ g.cur v
  votes : ∀ {T v c}, g.vote T v c → T ≤ g.cur v ∧ ∃ L, g.ask T c = some L
  keep : ∀ {T P v m}, Choosable tm g T P → g.ack T v m → P.length ≤ m → P <+: g.stable v
  complete : ∀ {T U P L}, Choosable tm g T P → T < U → g.lead U = some L → P <+: L
  promise : ∀ {T U P L v c m}, Choosable tm g T P → T < U → g.vote U v c → g.ask U c = some L →
    g.ack T v m → P.length ≤ m → P <+: L

theorem inv_init (T : τ) : Inv tm (init T : Replicas ι τ ε) := by
  constructor <;> simp [init, Coherent]

/-- A proposed prefix has entries of its term and of earlier ones. -/
theorem Inv.proposed_bound (hI : Inv tm g) (hP : Proposed tm g T P) : ∀ e ∈ P, tm e ≤ T := by
  obtain ⟨⟨L, hL, hle⟩, -⟩ := hP
  exact fun e he => hI.leadBound hL e (hle.subset he)

/-- A log that is as up to date as one that holds a choosable prefix holds it as well. -/
theorem Inv.upToDate_carries (hI : Inv tm g) (hc : Choosable tm g T P) {l : List ε}
    (hl : Coherent tm g l) (hL : Coherent tm g L) (hup : UpToDate tm L l) (hP : P <+: l) :
    P <+: L := by
  obtain ⟨p, hp, hpT⟩ := hc.1.2
  obtain ⟨e, he⟩ : ∃ e, l.getLast? = some e := by
    rcases hlast : l.getLast? with _ | e
    · rw [List.getLast?_eq_none_iff.mp hlast, List.prefix_nil] at hP
      rw [hP] at hp; cases hp
    · exact ⟨e, rfl⟩
  obtain ⟨d, hd, hlt | ⟨heq, hlen⟩⟩ := hup e he
  · -- the last entry of `L` comes from a later leader, whose log contains `P`
    obtain ⟨M, hM, hlM⟩ := hl.getLast he
    obtain ⟨N, hN, hLN⟩ := hL.getLast hd
    have hTd : T < tm d := by
      have hpM := hI.leadBound hM p (hlM.subset (hP.subset (List.mem_of_getLast? hp)))
      exact (hpT.symm.trans_le hpM).trans_lt hlt
    have hPN : P <+: N := hI.complete hc hTd hN
    rcases le_total P.length L.length with hle | hle
    · exact List.prefix_of_prefix_length_le hPN hLN hle
    · have hLP := List.prefix_of_prefix_length_le hLN hPN hle
      have hdT := hI.proposed_bound hc.1 d (hLP.subset (List.mem_of_getLast? hd))
      exact absurd hTd hdT.not_gt
  · -- both logs end in the same leader log, and `L` is the longer one
    obtain ⟨M, hM, hlM⟩ := hl.getLast he
    obtain ⟨N, hN, hLN⟩ := hL.getLast hd
    rw [heq] at hM
    obtain rfl : M = N := by rw [hM] at hN; exact Option.some.inj hN
    exact hP.trans (List.prefix_of_prefix_length_le hlM hLN hlen)

/-- Being choosable can only be lost. -/
theorem Choosable.back (h : Choosable tm g' T P) (hcur : ∀ v, g.cur v ≤ g'.cur v)
    (hack : ∀ v m, g'.ack T v m → g.ack T v m ∨ g.cur v ≤ T) (hP : Proposed tm g T P) :
    Choosable tm g T P := by
  obtain ⟨-, Q, hQ, hall⟩ := h
  refine ⟨hP, Q, hQ, fun v hv => ?_⟩
  rcases hall v hv with ⟨m, hm, hacked⟩ | hle
  · rcases hack v m hacked with h | h
    · exact .inl ⟨m, hm, h⟩
    · exact .inr h
  · exact .inr ((hcur v).trans hle)

/-! ### What is committed -/

theorem Chosen.choosable (h : Chosen tm g T P) : Choosable tm g T P := by
  obtain ⟨hP, Q, hQ, hall⟩ := h
  exact ⟨hP, Q, hQ, fun v hv => .inl (hall v hv)⟩

theorem Committed.mono (hg : Grows g g') (hT : T ≤ U) (h : Committed tm g T P) :
    Committed tm g' U P := by
  rcases h with rfl | ⟨V, R, hV, ⟨⟨⟨L, hL, hR⟩, he⟩, Q, hQ, hall⟩, hP⟩
  · exact .inl rfl
  · obtain ⟨L', hL', hle⟩ := hg.lead V L hL
    refine .inr ⟨V, R, hV.trans hT, ⟨⟨⟨L', hL', hR.trans hle⟩, he⟩, Q, hQ, fun v hv => ?_⟩, hP⟩
    obtain ⟨m, hm, hack⟩ := hall v hv
    exact ⟨m, hm, hg.ack V v m hack⟩

theorem Committed.restrict (h : Committed tm g T P) (hR : R <+: P) : Committed tm g T R := by
  rcases h with rfl | ⟨V, P', hV, hP', hP⟩
  · exact .inl (List.prefix_nil.mp hR)
  · exact .inr ⟨V, P', hV, hP', hR.trans hP⟩

/-- What is committed by a term is in the leader logs of this term and all later ones. -/
theorem Inv.committed_lead (hI : Inv tm g) (h : Committed tm g T P) (hT : T ≤ U)
    (hL : g.lead U = some L) : P <+: L := by
  rcases h with rfl | ⟨V, R, hV, hR, hP⟩
  · exact List.nil_prefix
  · refine hP.trans ?_
    rcases (hV.trans hT).lt_or_eq with hlt | rfl
    · exact hI.complete hR.choosable hlt hL
    · obtain ⟨⟨L', hL', hRL⟩, -⟩ := hR.1
      exact Option.some.inj (hL'.symm.trans hL) ▸ hRL

/-- Committed prefixes never disagree. -/
theorem Inv.committed_comparable (hI : Inv tm g) (h : Committed tm g T P)
    (h' : Committed tm g U R) : P <+: R ∨ R <+: P := by
  rcases h with rfl | ⟨V, P', hV, hP', hP⟩
  · exact .inl List.nil_prefix
  rcases h' with rfl | ⟨W, R', hW, hR', hR⟩
  · exact .inr List.nil_prefix
  -- both are prefixes of the leader log of the larger term
  obtain ⟨X, hX, hPX, hRX⟩ : ∃ X, g.lead (max V W) = some X ∧ P <+: X ∧ R <+: X := by
    obtain ⟨X, hX⟩ : ∃ X, g.lead (max V W) = some X := by
      rcases max_choice V W with h | h <;> rw [h]
      · exact ⟨_, hP'.1.1.choose_spec.1⟩
      · exact ⟨_, hR'.1.1.choose_spec.1⟩
    exact ⟨X, hX,
      hI.committed_lead (.inr ⟨V, P', le_rfl, hP', hP⟩) (le_max_left ..) hX,
      hI.committed_lead (.inr ⟨W, R', le_rfl, hR', hR⟩) (le_max_right ..) hX⟩
  exact List.prefix_or_prefix_of_prefix hPX hRX

/-! ### Every step keeps the invariant -/

variable {v c : ι}

theorem Inv.grant (hI : Inv tm g) (hcur : g.cur v = T) (hask : g.ask T c = some L)
    (hup : UpToDate tm L (g.log v)) : Inv tm (g.grant T v c) := by
  refine ⟨hI.leadBound, hI.logBound, hI.leadCoh, hI.logCoh, hI.askCoh, hI.stable, hI.acks, hI.held,
    hI.majority, ?_, hI.keep, hI.complete, ?_⟩
  · intro U w d hvote
    rcases hvote with ⟨rfl, rfl, rfl⟩ | hvote
    · exact ⟨hcur.ge, L, hask⟩
    · exact hI.votes hvote
  · intro T' U P L' w d m hc hlt hvote hask' hack hm
    rcases hvote with ⟨rfl, rfl, rfl⟩ | hvote
    · obtain rfl : L' = L := Option.some.inj (hask'.symm.trans hask)
      exact hI.upToDate_carries hc (hI.logCoh w) (hI.askCoh hask) hup
        ((hI.keep hc hack hm).trans (hI.stable w))
    · exact hI.promise hc hlt hvote hask' hack hm

/-- The new leader log has no entry of its own term yet. -/
theorem Choosable.of_elect (hI : Inv tm g) (hfresh : g.lead (g.cur c) = none)
    (h : Choosable tm (g.elect c) U P) : Choosable tm g U P := by
  refine h.back (fun _ => le_rfl) (fun _ _ => .inl) ?_
  obtain ⟨⟨⟨L, hL, hP⟩, e, he, rfl⟩, -⟩ := h
  rcases elect_lead hL with ⟨hU, rfl⟩ | hL
  · obtain ⟨k, hk⟩ := List.mem_iff_getElem?.mp (hP.subset (List.mem_of_getLast? he))
    obtain ⟨M, hM, -⟩ := hI.logCoh c k e hk
    rw [hU, hfresh] at hM; cases hM
  · exact ⟨⟨L, hL, hP⟩, e, he, rfl⟩

theorem Inv.elect (hI : Inv tm g) (hfresh : g.lead (g.cur c) = none) {Q : Finset ι}
    (hQ : Majority Q) (hvotes : ∀ v ∈ Q, v = c ∨ g.vote (g.cur c) v c)
    (hask : ∀ L, g.ask (g.cur c) c = some L → L <+: g.log c) : Inv tm (g.elect c) := by
  have hcoh : ∀ {X}, Coherent tm g X → Coherent tm (g.elect c) X := fun h =>
    h.mono fun U L hL => ⟨L, elect_lead_of_fresh hfresh hL, List.prefix_refl L⟩
  have hmaj : ∀ v ∈ Q, g.cur c ≤ g.cur v := by
    intro v hv
    rcases hvotes v hv with rfl | hvote
    · exact le_rfl
    · exact (hI.votes hvote).1
  refine ⟨?_, hI.logBound, ?_, fun w => hcoh (hI.logCoh w), fun h => hcoh (hI.askCoh h), hI.stable,
    ?_, ?_, ?_, hI.votes, fun h => hI.keep (h.of_elect hI hfresh), ?_,
    fun h => hI.promise (h.of_elect hI hfresh)⟩
  · intro U L hL
    rcases elect_lead hL with ⟨rfl, rfl⟩ | hL
    · exact hI.logBound c
    · exact hI.leadBound hL
  · intro U L hL
    rcases elect_lead hL with ⟨rfl, rfl⟩ | hL
    · exact hcoh (hI.logCoh c)
    · exact hcoh (hI.leadCoh hL)
  · intro U w m hack
    obtain ⟨hle, L, hL, hm⟩ := hI.acks hack
    exact ⟨hle, L, elect_lead_of_fresh hfresh hL, hm⟩
  · intro U w m L hack hw hL
    obtain ⟨-, L', hL', -⟩ := hI.acks hack
    obtain rfl : L' = L := Option.some.inj ((elect_lead_of_fresh hfresh hL').symm.trans hL)
    exact hI.held hack hw hL'
  · intro U L hL
    rcases elect_lead hL with ⟨rfl, rfl⟩ | hL
    · exact ⟨Q, hQ, hmaj⟩
    · exact hI.majority hL
  · intro T U P L hc' hlt hL
    have hc := hc'.of_elect hI hfresh
    clear hc'
    rcases elect_lead hL with ⟨rfl, rfl⟩ | hL
    · -- some voter has acknowledged `P`: the candidate itself, or one that promised it
      obtain ⟨Q', hQ', hall⟩ := hc.2
      obtain ⟨w, hw, hw'⟩ := hQ.exists_common hQ'
      obtain ⟨m, hm, hack⟩ := (hall w hw').resolve_right
        fun hle => absurd (hlt.trans_le (hmaj w hw)) hle.not_gt
      rcases hvotes w hw with rfl | hvote
      · exact (hI.keep hc hack hm).trans (hI.stable w)
      · obtain ⟨-, L, hL⟩ := hI.votes hvote
        exact (hI.promise hc hlt hvote hL hack hm).trans (hask L hL)
    · exact hI.complete hc hlt hL

theorem Inv.acknowledge (hI : Inv tm g) {m : ℕ} (hlead : g.lead (g.cur v) = some L)
    (hm : m ≤ L.length) (hheld : L.take m <+: g.stable v) : Inv tm (g.acknowledge v m) := by
  have hback : ∀ {U P}, Choosable tm (g.acknowledge v m) U P → Choosable tm g U P := by
    intro U P h
    refine h.back (fun _ => le_rfl) (fun w k hack => ?_) h.1
    rcases hack with ⟨rfl, rfl, -⟩ | hack
    · exact .inr le_rfl
    · exact .inl hack
  refine ⟨hI.leadBound, hI.logBound, hI.leadCoh, hI.logCoh, hI.askCoh, hI.stable, ?_, ?_,
    hI.majority, hI.votes, ?_, fun h => hI.complete (hback h), ?_⟩
  · intro U w k hack
    rcases hack with ⟨rfl, rfl, rfl⟩ | hack
    · exact ⟨le_rfl, L, hlead, hm⟩
    · exact hI.acks hack
  · intro U w k L' hack hw hL'
    rcases hack with ⟨rfl, rfl, rfl⟩ | hack
    · obtain rfl : L' = L := Option.some.inj (hL'.symm.trans hlead)
      exact hheld
    · exact hI.held hack hw hL'
  · intro U P w k hc hack hk
    rcases hack with ⟨rfl, rfl, rfl⟩ | hack
    · obtain ⟨⟨L', hL', hP⟩, -⟩ := hc.1
      obtain rfl : L' = L := Option.some.inj (hL'.symm.trans hlead)
      exact (List.prefix_take_iff.mpr ⟨hP, hk⟩).trans hheld
    · exact hI.keep (hback hc) hack hk
  · intro T U P L' w d k hc hlt hvote hask hack hk
    rcases hack with ⟨rfl, rfl, rfl⟩ | hack
    · exact absurd hlt (hI.votes hvote).1.not_gt
    · exact hI.promise (hback hc) hlt hvote hask hack hk

variable [DecidableEq ι]

theorem Inv.adopt (hI : Inv tm g) (hT : g.cur v ≤ T) : Inv tm (g.adopt v T) := by
  have hcur : ∀ w, g.cur w ≤ (g.adopt v T).cur w := by
    intro w
    rcases eq_or_ne w v with rfl | hne
    · simpa [Replicas.adopt] using hT
    · simp [Replicas.adopt, hne]
  have hback : ∀ {U P}, Choosable tm (g.adopt v T) U P → Choosable tm g U P := fun h =>
    h.back hcur (fun _ _ => .inl) h.1
  refine ⟨hI.leadBound, fun w e he => (hI.logBound w e he).trans (hcur w), hI.leadCoh, hI.logCoh,
    hI.askCoh, hI.stable, ?_, ?_, ?_, ?_, fun h => hI.keep (hback h),
    fun h => hI.complete (hback h), fun h => hI.promise (hback h)⟩
  · intro U w m hack
    exact ⟨(hI.acks hack).1.trans (hcur w), (hI.acks hack).2⟩
  · intro U w m L hack hw hL
    have hle := (hI.acks hack).1
    refine hI.held hack (le_antisymm ?_ hle) hL
    exact (hcur w).trans_eq hw
  · intro U L hL
    obtain ⟨Q, hQ, hall⟩ := hI.majority hL
    exact ⟨Q, hQ, fun w hw => (hall w hw).trans (hcur w)⟩
  · intro U w d hvote
    exact ⟨(hI.votes hvote).1.trans (hcur w), (hI.votes hvote).2⟩

theorem Inv.stand (hI : Inv tm g) (hfresh : g.ask (g.cur c) c = none) : Inv tm (g.stand c) := by
  have hold : ∀ {U w L}, (g.stand c).ask U w = some L →
      g.ask U w = some L ∨ U = g.cur c ∧ w = c ∧ L = g.log c := by
    intro U w L h
    simp only [Replicas.stand] at h
    split at h
    · rename_i hc
      exact .inr ⟨hc.1, hc.2, (Option.some.inj h).symm⟩
    · exact .inl h
  refine ⟨hI.leadBound, hI.logBound, hI.leadCoh, hI.logCoh, ?_, hI.stable, hI.acks, hI.held,
    hI.majority, ?_, hI.keep, hI.complete, ?_⟩
  · intro U w L h
    rcases hold h with h | ⟨-, -, rfl⟩
    · exact hI.askCoh h
    · exact hI.logCoh c
  · intro U w d hvote
    obtain ⟨hle, L, hL⟩ := hI.votes hvote
    refine ⟨hle, L, ?_⟩
    simp only [Replicas.stand]
    rw [if_neg]
    · exact hL
    · rintro ⟨rfl, rfl⟩
      rw [hfresh] at hL; cases hL
  · intro T U P L w d m hc hlt hvote hask hack hm
    rcases hold hask with hask | ⟨rfl, rfl, -⟩
    · exact hI.promise hc hlt hvote hask hack hm
    · obtain ⟨-, L', hL'⟩ := hI.votes hvote
      rw [hfresh] at hL'; cases hL'

theorem Inv.coherent_append (hI : Inv tm g) (hlead : g.lead (g.cur c) = some (g.log c)) {e : ε}
    (he : tm e = g.cur c) : Coherent tm (g.append c e) (g.log c ++ [e]) := by
  intro k d hk
  rcases lt_or_ge k (g.log c).length with hlt | hge
  · rw [List.getElem?_append_left hlt] at hk
    rw [List.take_append_of_le_length (by omega)]
    exact (hI.logCoh c).mono (append_lead_grows hlead e) k d hk
  · obtain ⟨hlt, hd⟩ := List.getElem?_eq_some_iff.mp hk
    rw [List.length_append, List.length_singleton] at hlt
    obtain rfl : k = (g.log c).length := by omega
    obtain rfl : e = d := by simpa using hd
    exact ⟨g.log c ++ [e], by simp [Replicas.append, he], List.take_prefix ..⟩

/-- A prefix that is choosable after an append was so before, or ends in the new entry. -/
theorem Choosable.of_append (hlead : g.lead (g.cur c) = some (g.log c)) {e : ε}
    (h : Choosable tm (g.append c e) U P) :
    Choosable tm g U P ∨ U = g.cur c ∧ P.length = (g.log c).length + 1 := by
  obtain ⟨⟨L, hL, hP⟩, d, hd, rfl⟩ := h.1
  rcases append_lead hL with ⟨hU, rfl⟩ | hL
  · rcases List.prefix_concat_iff.mp hP with rfl | hP
    · exact .inr ⟨hU, by simp⟩
    · exact .inl (h.back (fun _ => le_rfl) (fun _ _ => .inl) ⟨⟨_, hU ▸ hlead, hP⟩, d, hd, rfl⟩)
  · exact .inl (h.back (fun _ => le_rfl) (fun _ _ => .inl) ⟨⟨L, hL, hP⟩, d, hd, rfl⟩)

theorem Inv.append (hI : Inv tm g) (hlead : g.lead (g.cur c) = some (g.log c)) {e : ε}
    (he : tm e = g.cur c) : Inv tm (g.append c e) := by
  have hcoh : ∀ {X}, Coherent tm g X → Coherent tm (g.append c e) X := fun h =>
    h.mono (append_lead_grows hlead e)
  have hcohNew := hI.coherent_append hlead he
  have hboundNew : ∀ d ∈ g.log c ++ [e], tm d ≤ g.cur c := by
    intro d hd
    rcases List.mem_append.mp hd with hd | hd
    · exact hI.logBound c d hd
    · rw [List.mem_singleton.mp hd, he]
  -- nobody has acknowledged the new entry
  have hnoack : ∀ {w m}, g.ack (g.cur c) w m → m ≤ (g.log c).length := by
    intro w m hack
    obtain ⟨-, L, hL, hm⟩ := hI.acks hack
    rw [hlead] at hL
    obtain rfl := Option.some.inj hL
    exact hm
  refine ⟨?_, ?_, ?_, ?_, fun h => hcoh (hI.askCoh h), ?_, ?_, ?_, ?_, hI.votes, ?_, ?_, ?_⟩
  · intro U L hL d hd
    rcases append_lead hL with ⟨rfl, rfl⟩ | hL
    · exact hboundNew d hd
    · exact hI.leadBound hL d hd
  · intro w d hd
    rcases append_log g c w e with hw | ⟨rfl, hw⟩ <;> rw [hw] at hd
    · exact hI.logBound w d hd
    · exact hboundNew d hd
  · intro U L hL
    rcases append_lead hL with ⟨rfl, rfl⟩ | hL
    · exact hcohNew
    · exact hcoh (hI.leadCoh hL)
  · intro w
    rcases append_log g c w e with hw | ⟨rfl, hw⟩ <;> rw [hw]
    · exact hcoh (hI.logCoh w)
    · exact hcohNew
  · intro w
    rcases append_log g c w e with hw | ⟨rfl, hw⟩ <;> rw [hw]
    · exact hI.stable w
    · exact (hI.stable w).trans (List.prefix_append ..)
  · intro U w m hack
    obtain ⟨hle, L, hL, hm⟩ := hI.acks hack
    obtain ⟨L', hL', hpre⟩ := append_lead_grows hlead e U L hL
    exact ⟨hle, L', hL', hm.trans hpre.length_le⟩
  · intro U w m L hack hw hL
    rcases append_lead hL with ⟨rfl, rfl⟩ | hL
    · rw [List.take_append_of_le_length (hnoack hack)]
      exact hI.held hack hw hlead
    · exact hI.held hack hw hL
  · intro U L hL
    rcases append_lead hL with ⟨rfl, -⟩ | hL
    · exact hI.majority hlead
    · exact hI.majority hL
  · intro U P w m hc hack hm
    rcases hc.of_append hlead with hc | ⟨rfl, hlen⟩
    · exact hI.keep hc hack hm
    · have := hnoack hack; omega
  · intro T U P L hc hlt hL
    rcases hc.of_append hlead with hc' | ⟨rfl, hlen⟩
    · rcases append_lead hL with ⟨rfl, rfl⟩ | hL
      · exact (hI.complete hc' hlt hlead).trans (List.prefix_append ..)
      · exact hI.complete hc' hlt hL
    · -- the majority behind the later leader has left the term
      have hL : g.lead U = some L := (append_lead hL).resolve_left fun h => hlt.ne' h.1
      obtain ⟨Q, hQ, hgone⟩ := hI.majority hL
      obtain ⟨-, Q', hQ', hall⟩ := hc
      obtain ⟨w, hw, hw'⟩ := hQ.exists_common hQ'
      rcases hall w hw' with ⟨m, hm, hack⟩ | hle
      · have := hnoack hack; omega
      · exact absurd (hlt.trans_le (hgone w hw)) hle.not_gt
  · intro T U P L w d m hc hlt hvote hask hack hm
    rcases hc.of_append hlead with hc | ⟨rfl, hlen⟩
    · exact hI.promise hc hlt hvote hask hack hm
    · have := hnoack hack; omega

theorem Inv.accept (hI : Inv tm g) (hlead : g.lead (g.cur v) = some L) (hP : P <+: L)
    (hkeep : ∀ R, R <+: g.log v → R <+: L → R <+: P) : Inv tm (g.accept v P) := by
  have hlog : ∀ w, (g.accept v P).log w = g.log w ∧ (g.accept v P).stable w = g.stable w ∨
      w = v ∧ (g.accept v P).log w = P ∧ (g.accept v P).stable w = P := by
    intro w
    rcases eq_or_ne w v with rfl | hne
    · exact .inr ⟨rfl, by simp [Replicas.accept], by simp [Replicas.accept]⟩
    · exact .inl (by simp [Replicas.accept, hne])
  refine ⟨hI.leadBound, ?_, hI.leadCoh, ?_, hI.askCoh, ?_, hI.acks, ?_, hI.majority, hI.votes, ?_,
    hI.complete, hI.promise⟩
  · intro w e he
    rcases hlog w with ⟨hw, -⟩ | ⟨rfl, hw, -⟩ <;> rw [hw] at he
    · exact hI.logBound w e he
    · exact hI.leadBound hlead e (hP.subset he)
  · intro w
    rcases hlog w with ⟨hw, -⟩ | ⟨rfl, hw, -⟩ <;> rw [hw]
    · exact hI.logCoh w
    · exact (hI.leadCoh hlead).restrict hP
  · intro w
    rcases hlog w with ⟨hw, hw'⟩ | ⟨rfl, hw, hw'⟩ <;> rw [hw, hw']
    exact hI.stable w
  · intro T w m L' hack hw hL'
    have hheld := hI.held hack hw hL'
    rcases hlog w with ⟨-, hw'⟩ | ⟨rfl, -, hw'⟩ <;> rw [hw']
    · exact hheld
    · obtain rfl : L = L' := by
        rw [← hw] at hL'
        exact Option.some.inj (hlead.symm.trans hL')
      exact hkeep _ (hheld.trans (hI.stable w)) (List.take_prefix ..)
  · intro T R w m hc hack hm
    have hR := hI.keep hc hack hm
    rcases hlog w with ⟨-, hw'⟩ | ⟨rfl, -, hw'⟩ <;> rw [hw']
    · exact hR
    · refine hkeep R (hR.trans (hI.stable w)) ?_
      rcases (hI.acks hack).1.lt_or_eq with hlt | heq
      · exact hI.complete hc hlt hlead
      · obtain ⟨⟨L', hL', hRL⟩, -⟩ := hc.1
        have hL' : g.lead (g.cur w) = some L' := heq ▸ hL'
        rw [hlead] at hL'
        exact Option.some.inj hL' ▸ hRL

theorem Inv.save (hI : Inv tm g) : Inv tm (g.save v) := by
  have hst : ∀ w, g.stable w <+: (g.save v).stable w ∧ (g.save v).stable w <+: g.log w := by
    intro w
    rcases eq_or_ne w v with rfl | hne
    · simpa [Replicas.save] using hI.stable w
    · simpa [Replicas.save, hne] using hI.stable w
  refine ⟨hI.leadBound, hI.logBound, hI.leadCoh, hI.logCoh, hI.askCoh, fun w => (hst w).2, hI.acks,
    ?_, hI.majority, hI.votes, ?_, hI.complete, hI.promise⟩
  · intro T w m L hack hw hL
    exact (hI.held hack hw hL).trans (hst w).1
  · intro T P w m hc hack hm
    exact (hI.keep hc hack hm).trans (hst w).1

theorem Inv.lose (hI : Inv tm g) : Inv tm (g.lose v) := by
  have hlog : ∀ w, (g.lose v).log w <+: g.log w ∧ g.stable w <+: (g.lose v).log w := by
    intro w
    rcases eq_or_ne w v with rfl | hne
    · simpa [Replicas.lose] using hI.stable w
    · simpa [Replicas.lose, hne] using hI.stable w
  refine ⟨hI.leadBound, ?_, hI.leadCoh, ?_, hI.askCoh, fun w => (hlog w).2, hI.acks, hI.held,
    hI.majority, hI.votes, hI.keep, hI.complete, hI.promise⟩
  · intro w e he
    exact hI.logBound w e ((hlog w).1.subset he)
  · intro w
    exact (hI.logCoh w).restrict (hlog w).1

/-- Every step keeps the invariant. -/
theorem Inv.step (hI : Inv tm g) (h : Step tm g g') : Inv tm g' := by
  cases h with
  | adopt cur => exact hI.adopt cur
  | stand fresh => exact hI.stand fresh
  | grant cur ask upToDate => exact hI.grant cur ask upToDate
  | elect fresh majority votes ask => exact hI.elect fresh majority votes ask
  | append lead term => exact hI.append lead term
  | accept lead part keep => exact hI.accept lead part keep
  | acknowledge lead le held => exact hI.acknowledge lead le held
  | save => exact hI.save
  | lose => exact hI.lose

/-- The states that steps lead to. -/
def Steps (tm : ε → τ) : Replicas ι τ ε → Replicas ι τ ε → Prop := Relation.ReflTransGen (Step tm)

theorem Inv.steps (hI : Inv tm g) (h : Steps tm g g') : Inv tm g' := by
  induction h with
  | refl => exact hI
  | tail _ hstep ih => exact ih.step hstep

theorem Step.grows (h : Step tm g g') : Grows g g' := by
  cases h with
  | @stand c fresh =>
    refine ⟨(Grows.refl g).lead, fun T d L hL => ?_, fun _ _ _ => id, fun _ _ _ => id⟩
    rw [Replicas.stand]
    dsimp only
    rw [if_neg]
    · exact hL
    · rintro ⟨rfl, rfl⟩
      rw [fresh] at hL; cases hL
  | grant cur ask upToDate => exact ⟨(Grows.refl g).lead, fun _ _ _ => id, fun _ _ _ => .inr,
      fun _ _ _ => id⟩
  | @elect c _ fresh majority votes ask =>
    exact ⟨fun T L hL => ⟨L, elect_lead_of_fresh fresh hL, List.prefix_refl L⟩,
      fun _ _ _ => id, fun _ _ _ => id, fun _ _ _ => id⟩
  | append lead term => exact ⟨append_lead_grows lead _, fun _ _ _ => id, fun _ _ _ => id,
      fun _ _ _ => id⟩
  | acknowledge lead le held => exact ⟨(Grows.refl g).lead, fun _ _ _ => id, fun _ _ _ => id,
      fun _ _ _ => .inr⟩
  | _ => exact ⟨(Grows.refl g).lead, fun _ _ _ => id, fun _ _ _ => id, fun _ _ _ => id⟩

theorem Steps.grows (h : Steps tm g g') : Grows g g' := by
  induction h with
  | refl => exact .refl g
  | tail _ hstep ih => exact ih.trans hstep.grows

end Invariant

end Replicas
end DistLabs
