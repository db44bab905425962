import BitTorrent.DhtToken

/-! How long tokens are good for. Secrets are replaced by calls and nothing happens between calls, so
the life of a secret depends on when the store is called. It is at least ten minutes. It has no bound
at twenty minutes: a rotation may come just before its second interval is over, and the secret then
stays for one more. -/

namespace BitTorrent.Dht.TokenStore

open Rust List Nat Prod

variable (hash : Bytes → ShaHash)

/-! ### Calls -/

inductive Call where
  | checkout (addr : IpAddr)
  | checkin (addr : IpAddr) (token : Token)

/-- The store after a call at a time. -/
def call (state : TokenStore × Random) (c : Time × Call) : TokenStore × Random :=
  match c with
  | (now, .checkout addr) => (state.1.checkout hash state.2 addr now).2
  | (now, .checkin addr token) => (state.1.checkin hash state.2 addr token now).2

/-- A store made at `t₀`, with the secrets `value`, after calls at their times. -/
def after (value : Nat → UInt32) (t₀ : Time) (calls : List (Time × Call)) : TokenStore × Random :=
  calls.foldl (call hash) (new ⟨value, 0⟩ t₀)

/-- What the calls do to the store depends on when they are made and on nothing else. -/
def refresh (times : List Time) (state : TokenStore × Random) : TokenStore × Random :=
  times.foldl (fun state now => state.1.refreshCheck state.2 now) state

theorem foldl_call_eq (calls : List (Time × Call)) (state : TokenStore × Random) :
    calls.foldl (call hash) state = refresh (calls.map fst) state := by
  rw [refresh, foldl_map]
  congr 1
  funext state c
  obtain ⟨now, c⟩ := c
  cases c with
  | checkout addr => rfl
  | checkin addr token => rfl

omit hash in
theorem refresh_append (times times' : List Time) (state : TokenStore × Random) :
    refresh (times ++ times') state = refresh times' (refresh times state) :=
  foldl_append

/-! ### Rotation -/

section

variable {s : TokenStore} {g : Random} {now : Time}

omit hash

theorem numMinutes_nonneg {d : Time} (h : 0 ≤ d) : numMinutes d = d / minutes 1 := by
  rw [numMinutes, Int.tdiv_eq_ediv_of_nonneg h, Int.tdiv_eq_ediv_of_nonneg (by positivity)]
  rw [Int.ediv_ediv_of_nonneg (by decide)]
  rfl

theorem intervalsPassed_eq {lastRefresh : Time} (h : lastRefresh ≤ now) :
    intervalsPassed lastRefresh now = (now - lastRefresh) / minutes 10 := by
  have hdiff : 0 ≤ now - lastRefresh := Int.sub_nonneg_of_le h
  have hminutes : 0 ≤ (now - lastRefresh) / minutes 1 :=
    Int.ediv_nonneg hdiff (by decide)
  rw [intervalsPassed, numMinutes_nonneg hdiff, numMinutes_nonneg (by decide)]
  rw [Int.tdiv_eq_ediv_of_nonneg hminutes, Int.ediv_ediv_of_nonneg (by decide)]
  rfl

/-- A call finds the secrets less than one interval old, less than two, or older. -/
theorem refreshCheck_cases (h : s.lastRefresh ≤ now) :
    (now < s.lastRefresh + minutes 10 ∧ s.refreshCheck g now = (s, g)) ∨
    (s.lastRefresh + minutes 10 ≤ now ∧ now < s.lastRefresh + minutes 20 ∧
      s.refreshCheck g now = (⟨g.value g.drawn, s.currSecret, now⟩, ⟨g.value, g.drawn + 1⟩)) ∨
    (s.lastRefresh + minutes 20 ≤ now ∧ s.refreshCheck g now =
      (⟨g.value (g.drawn + 1), g.value g.drawn, now⟩, ⟨g.value, g.drawn + 2⟩)) := by
  have hpassed := intervalsPassed_eq h
  rw [refreshCheck]
  simp only [minutes, Time] at *
  split
  · rename_i hzero
    left
    exact ⟨by omega, rfl⟩
  · rename_i hone
    right
    left
    exact ⟨by omega, by omega, rfl⟩
  · rename_i hzero hone
    right
    right
    rw [hpassed, imp_false] at hzero hone
    exact ⟨by omega, rfl⟩

theorem refreshCheck_of_lt (g : Random) (h : s.lastRefresh ≤ now)
    (hlt : now < s.lastRefresh + minutes 10) : s.refreshCheck g now = (s, g) := by
  have hten : minutes 10 ≤ minutes 20 := by decide
  rcases refreshCheck_cases (g := g) h with ⟨-, heq⟩ | ⟨hle, -, -⟩ | ⟨hle, -⟩
  · exact heq
  · exact absurd hlt (not_lt.mpr hle)
  · linarith

theorem refreshCheck_recent (g : Random) (h : s.lastRefresh ≤ now) :
    (s.refreshCheck g now).1.lastRefresh ≤ now ∧ now < (s.refreshCheck g now).1.lastRefresh + minutes 10 := by
  rcases refreshCheck_cases (g := g) h with ⟨hlt, heq⟩ | ⟨-, -, heq⟩ | ⟨-, heq⟩
  · rw [heq]
    exact ⟨h, hlt⟩
  · rw [heq]
    exact ⟨le_rfl, by simp [minutes]⟩
  · rw [heq]
    exact ⟨le_rfl, by simp [minutes]⟩

theorem refreshCheck_lastRefresh (s : TokenStore) (g : Random) (now : Time) :
    (s.refreshCheck g now).1.lastRefresh = s.lastRefresh ∨ (s.refreshCheck g now).1.lastRefresh = now := by
  rw [refreshCheck]
  split
  · left
    rfl
  · right
    rfl
  · right
    rfl

theorem lastRefresh_refresh_le {u : Time} (times : List Time) (state : TokenStore × Random)
    (hstart : state.1.lastRefresh ≤ u) (htimes : ∀ v ∈ times, v ≤ u) :
    (refresh times state).1.lastRefresh ≤ u := by
  induction times generalizing state with
  | nil => exact hstart
  | cons v times ih =>
    rw [refresh, foldl_cons]
    apply ih
    · rcases refreshCheck_lastRefresh state.1 state.2 v with heq | heq
      · rw [heq]
        exact hstart
      · rw [heq]
        exact htimes v mem_cons_self
    · intro v' hv'
      exact htimes v' (mem_cons_of_mem v hv')

/-- Times of calls to come. -/
structure Sequel (times : List Time) (s : TokenStore) : Prop where
  sorted : times.Pairwise (· ≤ ·)
  past : ∀ u ∈ times, s.lastRefresh ≤ u

theorem Sequel.head {u : Time} {times : List Time} (h : Sequel (u :: times) s) : s.lastRefresh ≤ u :=
  h.past u mem_cons_self

theorem Sequel.tail {u : Time} {times : List Time} (h : Sequel (u :: times) s) (g : Random) :
    Sequel times (s.refreshCheck g u).1 := by
  have hsorted := pairwise_cons.mp h.sorted
  exact ⟨hsorted.2, fun v hv => (refreshCheck_recent g h.head).1.trans (hsorted.1 v hv)⟩

end

/-! ### The shortest life of a secret -/

section

variable {secret : UInt32} {t : Time}

omit hash

/-- The secret of a token handed out at `t` is the current one, or the one before and the current one
was drawn after `t`. -/
def Keeps (secret : UInt32) (t : Time) (s : TokenStore) : Prop :=
  (s.currSecret = secret ∧ t < s.lastRefresh + minutes 10) ∨
    (s.lastSecret = secret ∧ t < s.lastRefresh)

theorem Keeps.refreshCheck {s : TokenStore} {now : Time} (hkeeps : Keeps secret t s) (g : Random)
    (hpast : s.lastRefresh ≤ now) (hlife : now ≤ t + minutes 10) :
    Keeps secret t (s.refreshCheck g now).1 := by
  have htwo : minutes 20 = minutes 10 + minutes 10 := by decide
  rcases refreshCheck_cases (g := g) hpast with ⟨-, heq⟩ | ⟨hone, -, heq⟩ | ⟨hmany, -⟩
  · rw [heq]
    exact hkeeps
  · rw [heq]
    rcases hkeeps with ⟨hcurr, hrecent⟩ | ⟨hlast, hrecent⟩
    · exact Or.inr ⟨hcurr, hrecent.trans_le hone⟩
    · linarith
  · exfalso
    rcases hkeeps with ⟨-, hrecent⟩ | ⟨-, hrecent⟩
    · linarith
    · have hpos : 0 < minutes 10 := by decide
      linarith

theorem Keeps.refresh {times : List Time} {state : TokenStore × Random}
    (hkeeps : Keeps secret t state.1) (hsequel : Sequel times state.1)
    (hlife : ∀ u ∈ times, u ≤ t + minutes 10) : Keeps secret t (refresh times state).1 := by
  induction times generalizing state with
  | nil => exact hkeeps
  | cons u times ih =>
    rw [TokenStore.refresh, foldl_cons]
    apply ih (hkeeps.refreshCheck _ hsequel.head (hlife u mem_cons_self)) (hsequel.tail _)
    intro v hv
    exact hlife v (mem_cons_of_mem u hv)

end

/-! ### Runs around a checkout -/

section

variable {value : Nat → UInt32} {t₀ t t' : Time} {before between : List (Time × Call)} {addr : IpAddr}

theorem after_checkout :
    after hash value t₀ (before ++ (t, .checkout addr) :: between) = refresh (between.map fst)
      ((after hash value t₀ before).1.refreshCheck (after hash value t₀ before).2 t) := by
  rw [after, foldl_append, foldl_cons, foldl_call_eq, after]
  rfl

theorem checkin_refresh_iff {times : List Time} {state : TokenStore × Random} {token : Token} :
    ((refresh times state).1.checkin hash (refresh times state).2 addr token t').1 = true ↔
      generateTokenFromAddr hash addr (refresh (times ++ [t']) state).1.currSecret = token ∨
      generateTokenFromAddr hash addr (refresh (times ++ [t']) state).1.lastSecret = token := by
  rw [refresh_append, ← validateTokenFromAddr_iff]
  rfl

theorem lastRefresh_after_le
    (hsorted : (t₀ :: before.map fst ++ t :: between.map fst ++ [t']).Pairwise (· ≤ ·)) :
    (after hash value t₀ before).1.lastRefresh ≤ t := by
  rw [append_assoc, pairwise_append] at hsorted
  obtain ⟨-, -, hcross⟩ := hsorted
  rw [after, foldl_call_eq]
  apply lastRefresh_refresh_le
  · exact hcross t₀ mem_cons_self t mem_cons_self
  · intro v hv
    exact hcross v (mem_cons_of_mem t₀ hv) t mem_cons_self

omit hash in
theorem pairwise_since (hsorted : (t₀ :: before.map fst ++ t :: between.map fst ++ [t']).Pairwise (· ≤ ·)) :
    (∀ u ∈ between.map fst ++ [t'], t ≤ u ∧ u ≤ t') ∧ (between.map fst ++ [t']).Pairwise (· ≤ ·) := by
  rw [append_assoc, pairwise_append] at hsorted
  obtain ⟨-, hlater, -⟩ := hsorted
  rw [cons_append, pairwise_cons] at hlater
  obtain ⟨hfirst, hlater⟩ := hlater
  refine ⟨fun u hu => ⟨hfirst u hu, ?_⟩, hlater⟩
  rw [pairwise_append] at hlater
  rcases mem_append.mp hu with hu | hu
  · exact hlater.2.2 u hu t' mem_cons_self
  · rw [mem_singleton.mp hu]

end

/-- A token is good for ten minutes at least, whenever the store is called meanwhile. -/
theorem checkin_of_recent_checkout (value : Nat → UInt32) (t₀ t t' : Time)
    (before between : List (Time × Call)) (addr : IpAddr)
    (hsorted : (t₀ :: before.map Prod.fst ++ t :: between.map Prod.fst ++ [t']).Pairwise (· ≤ ·))
    (hlife : t' ≤ t + minutes 10) :
    let issuer := after hash value t₀ before
    let token := (issuer.1.checkout hash issuer.2 addr t).1
    let state := after hash value t₀ (before ++ (t, .checkout addr) :: between)
    (state.1.checkin hash state.2 addr token t').1 = true := by
  intro issuer token state
  obtain ⟨hbounds, hlater⟩ := pairwise_since hsorted
  have hpast : issuer.1.lastRefresh ≤ t := lastRefresh_after_le hash hsorted
  have hrecent := refreshCheck_recent issuer.2 hpast
  have hissued : Keeps (issuer.1.refreshCheck issuer.2 t).1.currSecret t
      (issuer.1.refreshCheck issuer.2 t).1 := Or.inl ⟨rfl, hrecent.2⟩
  have hkeeps := hissued.refresh ⟨hlater, fun u hu => hrecent.1.trans (hbounds u hu).1⟩
    fun u hu => (hbounds u hu).2.trans hlife
  rw [show state = _ from after_checkout hash, checkin_refresh_iff]
  rcases hkeeps with ⟨hcurr, -⟩ | ⟨hlast, -⟩
  · left
    rw [hcurr]
    rfl
  · right
    rw [hlast]
    rfl

/-! ### The longest life of a secret -/

section

variable {secret : UInt32} {times : List Time} {state : TokenStore × Random}

omit hash

/-- The store would accept a token made with the secret. -/
def Accepts (s : TokenStore) (secret : UInt32) : Prop :=
  s.currSecret = secret ∨ s.lastSecret = secret

/-- The secret was drawn, and all values drawn before the end of the run are distinct. -/
structure DrawnOnce (secret : UInt32) (times : List Time) (state : TokenStore × Random) : Prop where
  drawn : ∃ k < state.2.drawn, state.2.value k = secret
  distinct : ∀ i < (refresh times state).2.drawn, ∀ j < (refresh times state).2.drawn,
    state.2.value i = state.2.value j → i = j

theorem value_refreshCheck (s : TokenStore) (g : Random) (now : Time) :
    (s.refreshCheck g now).2.value = g.value ∧ g.drawn ≤ (s.refreshCheck g now).2.drawn := by
  rw [refreshCheck]
  split
  · exact ⟨rfl, le_rfl⟩
  · exact ⟨rfl, le_add_right _ 1⟩
  · exact ⟨rfl, le_add_right _ 2⟩

theorem drawn_le_refresh (times : List Time) (state : TokenStore × Random) :
    state.2.drawn ≤ (refresh times state).2.drawn := by
  induction times generalizing state with
  | nil => exact le_rfl
  | cons u times ih =>
    rw [refresh, foldl_cons]
    exact (value_refreshCheck _ _ _).2.trans (ih _)

theorem DrawnOnce.tail {u : Time} (h : DrawnOnce secret (u :: times) state) :
    DrawnOnce secret times (state.1.refreshCheck state.2 u) := by
  obtain ⟨hvalue, hle⟩ := value_refreshCheck state.1 state.2 u
  obtain ⟨k, hk, hsecret⟩ := h.drawn
  constructor
  · exact ⟨k, hk.trans_le hle, hvalue ▸ hsecret⟩
  · rw [hvalue]
    exact h.distinct

theorem DrawnOnce.value_ne {i : Nat} (h : DrawnOnce secret times state) (hlater : state.2.drawn ≤ i)
    (hdrawn : i < (refresh times state).2.drawn) : state.2.value i ≠ secret := by
  obtain ⟨k, hk, hsecret⟩ := h.drawn
  intro heq
  have hik := h.distinct i hdrawn k ((hk.trans_le hlater).trans hdrawn) (heq.trans hsecret.symm)
  omega

/-- Which of the two secrets a call leaves in place, and where. -/
theorem DrawnOnce.refreshCheck_iff {u : Time} (h : DrawnOnce secret (u :: times) state)
    (hpast : state.1.lastRefresh ≤ u) : ((state.1.refreshCheck state.2 u).1.currSecret = secret ↔
      u < state.1.lastRefresh + minutes 10 ∧ state.1.currSecret = secret) ∧
    ((state.1.refreshCheck state.2 u).1.lastSecret = secret ↔
      (u < state.1.lastRefresh + minutes 10 ∧ state.1.lastSecret = secret) ∨
      (state.1.lastRefresh + minutes 10 ≤ u ∧ u < state.1.lastRefresh + minutes 20 ∧
        state.1.currSecret = secret)) := by
  have hfresh : ∀ i, state.2.drawn ≤ i → i < (state.1.refreshCheck state.2 u).2.drawn →
      state.2.value i ≠ secret := by
    intro i hlater hi
    apply h.value_ne hlater
    rw [refresh, foldl_cons]
    exact hi.trans_le (drawn_le_refresh times _)
  have hten : minutes 10 ≤ minutes 20 := by decide
  rcases refreshCheck_cases (g := state.2) hpast with
    ⟨hlt, heq⟩ | ⟨hle, hlt, heq⟩ | ⟨hle, heq⟩
  · rw [heq]
    simp [hlt, not_le.mpr hlt]
  · have hcurr := hfresh state.2.drawn le_rfl (by rw [heq]; exact lt_succ_self _)
    rw [heq]
    simp [hcurr, hle, hlt, not_lt.mpr hle]
  · have hlast := hfresh state.2.drawn le_rfl (by rw [heq]; exact Nat.lt_add_of_pos_right (by decide))
    have hcurr := hfresh (state.2.drawn + 1) (Nat.le_succ _) (by rw [heq]; exact Nat.lt_succ_self _)
    have hle' : state.1.lastRefresh + minutes 10 ≤ u := by linarith
    rw [heq]
    simp [hcurr, hlast, not_lt.mpr hle, not_lt.mpr hle']

theorem not_accepts_refresh (hdrawn : DrawnOnce secret times state) (hsequel : Sequel times state.1)
    (hlost : ¬ state.1.Accepts secret) : ¬ (refresh times state).1.Accepts secret := by
  induction times generalizing state with
  | nil => exact hlost
  | cons u times ih =>
    rw [refresh, foldl_cons]
    apply ih hdrawn.tail (hsequel.tail _)
    obtain ⟨hcurr, hlast⟩ := hdrawn.refreshCheck_iff hsequel.head
    rw [Accepts, not_or] at hlost
    rw [Accepts, hcurr, hlast]
    tauto

/-- The secret before the current one is lost with the next rotation. -/
theorem accepts_refresh_of_last (hdrawn : DrawnOnce secret times state)
    (hsequel : Sequel times state.1) (hcurr : state.1.currSecret ≠ secret)
    (hlast : state.1.lastSecret = secret) :
    (refresh times state).1.Accepts secret ↔ ∀ u ∈ times, u < state.1.lastRefresh + minutes 10 := by
  induction times with
  | nil => exact ⟨fun _ _ hu => absurd hu not_mem_nil, fun _ => Or.inr hlast⟩
  | cons u times ih =>
    rw [forall_mem_cons, refresh, foldl_cons]
    have hdrawn' := hdrawn.tail
    have hsequel' := hsequel.tail state.2
    by_cases hu : u < state.1.lastRefresh + minutes 10
    · rw [refreshCheck_of_lt _ hsequel.head hu] at hdrawn' hsequel' ⊢
      exact (ih hdrawn' hsequel').trans (and_iff_right hu).symm
    · refine iff_of_false ?_ fun h => hu h.1
      apply not_accepts_refresh hdrawn' hsequel'
      obtain ⟨hcurr', hlast'⟩ := hdrawn.refreshCheck_iff hsequel.head
      rw [Accepts, hcurr', hlast']
      tauto

/-- The current secret outlives the next rotation, unless two intervals went by before it, and is
lost with the one after. -/
theorem accepts_refresh_of_curr (hdrawn : DrawnOnce secret times state)
    (hsequel : Sequel times state.1) (hcurr : state.1.currSecret = secret) :
    (refresh times state).1.Accepts secret ↔
      ∀ t₁, times.find? (fun u => state.1.lastRefresh + minutes 10 ≤ u) = some t₁ →
        t₁ < state.1.lastRefresh + minutes 20 ∧ ∀ u ∈ times, u < t₁ + minutes 10 := by
  have hpos : 0 < minutes 10 := by decide
  induction times with
  | nil => exact iff_of_true (Or.inl hcurr) fun t₁ hfind => by cases hfind
  | cons u times ih =>
    rw [refresh, foldl_cons]
    have hdrawn' := hdrawn.tail
    have hsequel' := hsequel.tail state.2
    by_cases hu : u < state.1.lastRefresh + minutes 10
    · rw [refreshCheck_of_lt _ hsequel.head hu] at hdrawn' hsequel' ⊢
      rw [find?_cons_of_neg (by simpa using hu)]
      refine (ih hdrawn' hsequel').trans (forall₂_congr fun t₁ hfind => ?_)
      -- the rotation comes later than the calls before it
      have hlater : u < t₁ := hu.trans_le (by simpa using find?_some hfind)
      rw [forall_mem_cons]
      exact and_congr_right fun _ => (and_iff_right (by linarith)).symm
    · have hfind : (u :: times).find? (fun u => state.1.lastRefresh + minutes 10 ≤ u) = some u :=
        find?_cons_of_pos (by simpa using hu)
      obtain ⟨hcurr', hlast'⟩ := hdrawn.refreshCheck_iff hsequel.head
      rw [hfind]
      by_cases hone : u < state.1.lastRefresh + minutes 20
      · have hlast : (state.1.refreshCheck state.2 u).1.lastSecret = secret :=
          hlast'.mpr (Or.inr ⟨not_lt.mp hu, hone, hcurr⟩)
        have hgone : (state.1.refreshCheck state.2 u).1.currSecret ≠ secret := fun h =>
          hu (hcurr'.mp h).1
        have hrefresh : (state.1.refreshCheck state.2 u).1.lastRefresh = u := by
          rcases refreshCheck_cases (g := state.2) hsequel.head with
            ⟨hlt, -⟩ | ⟨-, -, heq⟩ | ⟨hle, -⟩
          · exact absurd hlt hu
          · rw [heq]
          · exact absurd hone (not_lt.mpr hle)
        refine (accepts_refresh_of_last hdrawn' hsequel' hgone hlast).trans ?_
        rw [hrefresh]
        simp only [Option.some.injEq, forall_eq', forall_mem_cons, hone, true_and]
        exact (and_iff_right (by linarith)).symm
      · refine iff_of_false ?_ fun h => hone (h u rfl).1
        apply not_accepts_refresh hdrawn' hsequel'
        rw [Accepts, hcurr', hlast']
        tauto

end

section

variable {value : Nat → UInt32} {t₀ : Time}

omit hash

/-- The current secret is one of the values drawn. -/
def Draws (value : Nat → UInt32) (state : TokenStore × Random) : Prop :=
  state.2.value = value ∧ ∃ k < state.2.drawn, value k = state.1.currSecret

theorem Draws.refreshCheck {state : TokenStore × Random} (h : Draws value state) (now : Time) :
    Draws value (state.1.refreshCheck state.2 now) := by
  obtain ⟨rfl, k, hk, hcurr⟩ := h
  rw [TokenStore.refreshCheck]
  split
  · exact ⟨rfl, k, hk, hcurr⟩
  · exact ⟨rfl, state.2.drawn, lt_succ_self _, rfl⟩
  · exact ⟨rfl, state.2.drawn + 1, lt_succ_self _, rfl⟩

theorem Draws.refresh {state : TokenStore × Random} (h : Draws value state) (times : List Time) :
    Draws value (refresh times state) := by
  induction times generalizing state with
  | nil => exact h
  | cons u times ih =>
    rw [TokenStore.refresh, foldl_cons]
    exact ih (h.refreshCheck u)

theorem draws_new (value : Nat → UInt32) (t₀ : Time) : Draws value (new ⟨value, 0⟩ t₀) :=
  ⟨rfl, 0, zero_lt_two, rfl⟩

end

/-- A token handed out with a secret that was drawn at `r` is rejected exactly if there was a call at
`r + 10 min` or later, and the first such call came at `r + 20 min` or later, or ten minutes or more
before the checkin. So a token outlives twenty minutes whenever that call came late enough. -/
theorem checkin_rejects_iff (value : Nat → UInt32) (t₀ t t' : Time)
    (before between : List (Time × Call)) (addr : IpAddr)
    (hsorted : (t₀ :: before.map Prod.fst ++ t :: between.map Prod.fst ++ [t']).Pairwise (· ≤ ·)) :
    let issuer := after hash value t₀ before
    let issued := issuer.1.checkout hash issuer.2 addr t
    let r := issued.2.1.lastRefresh
    let state := after hash value t₀ (before ++ (t, .checkout addr) :: between)
    let answer := state.1.checkin hash state.2 addr issued.1 t'
    Set.InjOn value (Set.Iio answer.2.2.drawn) → Function.Injective (generateTokenFromAddr hash addr) →
      (answer.1 = false ↔
        ∃ t₁, (between.map Prod.fst ++ [t']).find? (fun u => r + minutes 10 ≤ u) = some t₁ ∧
          (r + minutes 20 ≤ t₁ ∨ t₁ + minutes 10 ≤ t')) := by
  intro issuer issued r state answer hdistinct hinjective
  obtain ⟨hbounds, hlater⟩ := pairwise_since hsorted
  have hpast : issuer.1.lastRefresh ≤ t := lastRefresh_after_le hash hsorted
  have hrecent := refreshCheck_recent issuer.2 hpast
  have hsequel : Sequel (between.map Prod.fst ++ [t']) issued.2.1 :=
    ⟨hlater, fun u hu => hrecent.1.trans (hbounds u hu).1⟩
  have hdraws : Draws value issued.2 := by
    have hnew := (draws_new value t₀).refresh (before.map Prod.fst)
    rw [← foldl_call_eq hash] at hnew
    exact hnew.refreshCheck t
  have hstate : state = refresh (between.map Prod.fst) issued.2 := after_checkout hash
  have hdrawn : DrawnOnce issued.2.1.currSecret (between.map Prod.fst ++ [t']) issued.2 := by
    obtain ⟨hvalue, hcurr⟩ := hdraws
    constructor
    · rw [hvalue]
      exact hcurr
    · rw [hvalue, refresh_append, ← hstate]
      exact fun i hi j hj heq => hdistinct hi hj heq
  have haccepts := accepts_refresh_of_curr hdrawn hsequel rfl
  have hanswer : answer.1 = true ↔
      (refresh (between.map Prod.fst ++ [t']) issued.2).1.Accepts issued.2.1.currSecret := by
    rw [show answer = state.1.checkin hash state.2 addr issued.1 t' from rfl, hstate,
      checkin_refresh_iff]
    exact or_congr hinjective.eq_iff hinjective.eq_iff
  -- the checkin is the last of the calls, so it is enough to look at it
  have hlast : ∀ t₁, (∀ u ∈ between.map Prod.fst ++ [t'], u < t₁ + minutes 10) ↔
      t' < t₁ + minutes 10 := fun t₁ =>
    ⟨fun h => h t' (mem_append_right _ mem_cons_self),
      fun h u hu => (hbounds u hu).2.trans_lt h⟩
  rw [← Bool.not_eq_true, hanswer, haccepts]
  simp only [hlast, not_forall, not_and_or, not_lt, exists_prop]
  rfl

/-! ### A store and its tokens -/

/-- A hash that cuts its input or fills it with zeros. -/
def padHash (bytes : Bytes) : ShaHash :=
  ⟨(bytes ++ replicate shaHashLen 0).take shaHashLen, by simp⟩

def localhost : IpAddr := .v4 (octets 127 0 0 1)

omit hash in
theorem padHash_injective : Function.Injective (generateTokenFromAddr padHash localhost) := by
  intro secret secret' h
  have htoken := congrArg (fun token : Token => (token.token.take 8).drop 4) h
  simp [generateTokenFromAddr, localhost, generateTokenFromAddrV4, padHash, ipv4ToBytesBe,
    take_append, shaHashLen, fourBytesToArray] at htoken
  rw [take_of_length_le (by simp), take_of_length_le (by simp)] at htoken
  exact fourBytesToArray_injective htoken

omit hash in
theorem injOn_ofNat {n : Nat} (h : n ≤ 2 ^ 32) : Set.InjOn UInt32.ofNat (Set.Iio n) := by
  intro i hi j hj heq
  have hnat := congrArg UInt32.toNat heq
  rwa [UInt32.toNat_ofNat_of_lt' (lt_of_lt_of_le hi h),
    UInt32.toNat_ofNat_of_lt' (lt_of_lt_of_le hj h)] at hnat

omit hash in
/-- Ten minutes after a checkout, with a rotation by one interval in between. -/
theorem checkin_of_recent_checkout_ten :
    let issuer := after padHash UInt32.ofNat 0 []
    let token := (issuer.1.checkout padHash issuer.2 localhost (minutes 5)).1
    let state := after padHash UInt32.ofNat 0
      ([] ++ (minutes 5, .checkout localhost) :: [(minutes 12, .checkout localhost)])
    (state.1.checkin padHash state.2 localhost token (minutes 15)).1 = true :=
  checkin_of_recent_checkout padHash UInt32.ofNat 0 (minutes 5) (minutes 15) []
    [(minutes 12, .checkout localhost)] localhost (by decide) (by decide)

omit hash in
/-- With a call after nineteen minutes, a token is still good after twenty-five. -/
theorem checkin_after_late_rotation :
    let between : List (Time × Call) := [(minutes 19, .checkout localhost)]
    let issuer := after padHash UInt32.ofNat 0 []
    let issued := issuer.1.checkout padHash issuer.2 localhost 0
    let state := after padHash UInt32.ofNat 0 ([] ++ (0, .checkout localhost) :: between)
    let answer := state.1.checkin padHash state.2 localhost issued.1 (minutes 25)
    ([0] ++ 0 :: between.map Prod.fst ++ [minutes 25]).Pairwise (· ≤ ·) ∧
      Set.InjOn UInt32.ofNat (Set.Iio answer.2.2.drawn) ∧
      Function.Injective (generateTokenFromAddr padHash localhost) ∧
      (0 : Time) + minutes 20 ≤ minutes 25 ∧ answer.1 = true := by
  intro between issuer issued state answer
  exact ⟨by decide, injOn_ofNat (by decide), padHash_injective, by decide, by decide⟩

omit hash in
theorem checkin_rejects_iff_twenty :
    let issuer := after padHash UInt32.ofNat 0 []
    let issued := issuer.1.checkout padHash issuer.2 localhost 0
    let state := after padHash UInt32.ofNat 0 ([] ++ (0, .checkout localhost) :: [])
    (state.1.checkin padHash state.2 localhost issued.1 (minutes 20)).1 = false :=
  (checkin_rejects_iff padHash UInt32.ofNat 0 0 (minutes 20) [] [] localhost (by decide)
    (injOn_ofNat (by decide)) padHash_injective).mpr ⟨minutes 20, by decide, Or.inl (by decide)⟩

end BitTorrent.Dht.TokenStore
