import Mathlib.Tactic

/-!
# Delivery of events to a webhook

The settings of an output of `eventrecorder/webhook.go` and the loop of `postWithRetry`.
Durations are 64-bit integers, and the delay before the next attempt is shifted before it
is capped. The shift drops the high bits, so that the delay is the intended one only as
long as the doubled base fits.
-/
namespace Alertmanager.Webhook

/-- The numbers of `WebhookOutputConfig`. Those that are not positive mean the default. -/
structure OutputConfig where
  timeout : Int64 := 0
  workers : Int64 := 0
  maxRetries : Int64 := 0
  retryBackoff : Int64 := 0
  batch : Bool := false
  batchMaxEvents : Int64 := 0
  batchMaxBytes : Int64 := 0
  batchFlushInterval : Int64 := 0

def second : Int64 := 1000000000

def millisecond : Int64 := 1000000

def defaultWebhookTimeout : Int64 := 10 * second

def defaultWebhookWorkers : Int64 := 4

def defaultWebhookMaxRetries : Int64 := 3

def defaultWebhookRetryBackoff : Int64 := 500 * millisecond

def defaultWebhookMaxBackoff : Int64 := 30 * second

def defaultHTTPBatchMaxEvents : Int64 := 100

def defaultHTTPBatchMaxBytes : Int64 := 1048576

def defaultHTTPBatchInterval : Int64 := 100 * millisecond

/-- A setting, or its default. -/
def setting (value default : Int64) : Int64 := if value > 0 then value else default

structure HTTPBatchConfig where
  maxEvents : Int64
  maxBytes : Int64
  flushInterval : Int64

/-- `newHTTPBatchConfig`. -/
def newHTTPBatchConfig (maxEvents maxBytes flushInterval : Int64) : HTTPBatchConfig where
  maxEvents := setting maxEvents defaultHTTPBatchMaxEvents
  maxBytes := setting maxBytes defaultHTTPBatchMaxBytes
  flushInterval := setting flushInterval defaultHTTPBatchInterval

/-- The settings of a `WebhookOutput`. -/
structure Output where
  timeout : Int64
  workers : Int64
  batch : Option HTTPBatchConfig
  maxRetries : Int64
  retryBackoff : Int64
  maxBackoff : Int64

/-- `NewWebhookOutput` with `newWebhookOutput`. -/
def newWebhookOutput (cfg : OutputConfig) : Output where
  timeout := setting cfg.timeout defaultWebhookTimeout
  workers := setting cfg.workers defaultWebhookWorkers
  batch := if cfg.batch then
      some (newHTTPBatchConfig cfg.batchMaxEvents cfg.batchMaxBytes cfg.batchFlushInterval)
    else none
  maxRetries := setting cfg.maxRetries defaultWebhookMaxRetries
  retryBackoff := setting cfg.retryBackoff defaultWebhookRetryBackoff
  maxBackoff := defaultWebhookMaxBackoff

/-! ### Retries -/

/-- `d << k`, which keeps the low 64 bits. -/
def shiftLeft (d : Int64) (k : ℕ) : Int64 := .ofInt (d.toInt * 2 ^ k)

/-- The delay after a failed attempt. -/
def Output.backoff (wo : Output) (attempt : ℕ) : Int64 :=
  if shiftLeft wo.retryBackoff attempt ≤ wo.maxBackoff then shiftLeft wo.retryBackoff attempt
  else wo.maxBackoff

inductive Delivery
  | delivered
  | shutdown
  | dropped
  deriving DecidableEq

/-- The attempts of `postWithRetry` that are left, from the given one on: how long it
waits between them and how it ends. Whether an attempt succeeds, and whether the output is
cancelled while it waits after one, is up to the world. -/
def Output.retryLoop (wo : Output) (succeeds cancelled : ℕ → Bool) :
    ℕ → ℕ → List Int64 × Delivery
  | 0, _ => ([], .dropped)
  | left + 1, attempt =>
    if succeeds attempt then ([], .delivered)
    else if (attempt : ℤ) < wo.maxRetries.toInt - 1 then
      if cancelled attempt then ([wo.backoff attempt], .shutdown)
      else
        let rest := wo.retryLoop succeeds cancelled left (attempt + 1)
        (wo.backoff attempt :: rest.1, rest.2)
    else wo.retryLoop succeeds cancelled left (attempt + 1)

/-- `postWithRetry`. -/
def Output.postWithRetry (wo : Output) (succeeds cancelled : ℕ → Bool) : List Int64 × Delivery :=
  wo.retryLoop succeeds cancelled wo.maxRetries.toInt.toNat 0

/-- The waiting times are positive, within the bound, and do not decrease. -/
structure GoodWaits (maxBackoff : Int64) (waits : List Int64) : Prop where
  positive : ∀ d ∈ waits, 0 < d
  bounded : ∀ d ∈ waits, d ≤ maxBackoff
  monotone : waits.Pairwise (· ≤ ·)

/-- Where all attempts fail, the delays are those of the first attempts. -/
theorem Output.retryLoop_waits (wo : Output) {succeeds : ℕ → Bool}
    (hfail : ∀ i, succeeds i = false) (cancelled : ℕ → Bool) (left attempt : ℕ)
    (hleft : attempt + left = wo.maxRetries.toInt.toNat) :
    ∃ k ≤ left - 1, (wo.retryLoop succeeds cancelled left attempt).1 =
        (List.range' attempt k).map wo.backoff ∧
      ((∀ i, cancelled i = false) → k = left - 1) := by
  induction left generalizing attempt with
  | zero => exact ⟨0, le_rfl, rfl, fun _ => rfl⟩
  | succ left ih =>
    rw [retryLoop, if_neg (by simp [hfail])]
    obtain ⟨k, hk, hwaits, hall⟩ := ih (attempt + 1) (by omega)
    by_cases hmore : (attempt : ℤ) < wo.maxRetries.toInt - 1
    · rw [if_pos hmore]
      cases hcancel : cancelled attempt with
      | true =>
        refine ⟨1, by omega, rfl, fun hnone => ?_⟩
        rw [hnone attempt] at hcancel
        cases hcancel
      | false =>
        refine ⟨k + 1, by omega, ?_, fun hnone => ?_⟩
        · simp [hwaits, List.range'_succ]
        · have := hall hnone
          omega
    · -- the last attempt is followed by no delay
      have hlast : left = 0 := by omega
      subst hlast
      rw [if_neg hmore]
      exact ⟨0, le_rfl, rfl, fun _ => rfl⟩

/-- A product that fits is kept. -/
theorem toInt_shiftLeft {d : Int64} {k : ℕ} (hd : 0 < d) (h : d.toInt * 2 ^ k < 2 ^ 63) :
    (shiftLeft d k).toInt = d.toInt * 2 ^ k := by
  have hpos : 0 < d.toInt * 2 ^ k :=
    Int.mul_pos (Int64.lt_iff_toInt_lt.mp hd) (by positivity)
  rw [shiftLeft, Int64.toInt_ofInt]
  generalize d.toInt * 2 ^ k = n at h hpos
  exact Int.bmod_eq_of_le (by simp [Int64.size]; omega) (by simp [Int64.size]; omega)

/-- The first product that does not fit has its highest bit set. -/
theorem toInt_shiftLeft_neg {d : Int64} {k : ℕ} (h : 2 ^ 63 ≤ d.toInt * 2 ^ k)
    (h' : d.toInt * 2 ^ k < 2 ^ 64) : (shiftLeft d k).toInt < 0 := by
  rw [shiftLeft, Int64.toInt_ofInt]
  generalize d.toInt * 2 ^ k = n at h h'
  simp only [Int.bmod, Int64.size]
  omega

/-- Doubling passes through the first half of the range that does not fit. -/
theorem exists_first_overflow {d : Int64} {k : ℕ} (h : 2 ^ 63 ≤ d.toInt * 2 ^ k) :
    ∃ j ≤ k, 2 ^ 63 ≤ d.toInt * 2 ^ j ∧ d.toInt * 2 ^ j < 2 ^ 64 := by
  induction k with
  | zero =>
    have := d.toInt_lt
    simp only [pow_zero, mul_one] at h
    omega
  | succ k ih =>
    by_cases hk : 2 ^ 63 ≤ d.toInt * 2 ^ k
    · obtain ⟨j, hj, hfirst⟩ := ih hk
      exact ⟨j, by omega, hfirst⟩
    · refine ⟨k + 1, le_rfl, h, ?_⟩
      rw [pow_succ, ← mul_assoc]
      omega

section
variable {wo : Output}

theorem Output.backoff_le (attempt : ℕ) : wo.backoff attempt ≤ wo.maxBackoff := by
  rw [backoff]
  split_ifs with h
  · exact h
  · exact Int64.le_refl _

/-- As long as the base fits, the delay is the doubled base, or its bound. -/
theorem Output.toInt_backoff {attempt : ℕ} (hd : 0 < wo.retryBackoff)
    (h : wo.retryBackoff.toInt * 2 ^ attempt < 2 ^ 63) :
    (wo.backoff attempt).toInt = min (wo.retryBackoff.toInt * 2 ^ attempt) wo.maxBackoff.toInt := by
  rw [backoff, ← toInt_shiftLeft hd h]
  split_ifs with hle
  · rw [Int64.le_iff_toInt_le] at hle
    omega
  · rw [Int64.le_iff_toInt_le] at hle
    omega

theorem Output.goodWaits_range (hd : 0 < wo.retryBackoff) (hmax : 0 < wo.maxBackoff) {k : ℕ}
    (h : wo.retryBackoff.toInt * 2 ^ (k - 1) < 2 ^ 63) :
    GoodWaits wo.maxBackoff ((List.range' 0 k).map wo.backoff) := by
  have hpos : 0 < wo.retryBackoff.toInt := Int64.lt_iff_toInt_lt.mp hd
  have hmono : ∀ {i j : ℕ}, i ≤ j →
      wo.retryBackoff.toInt * 2 ^ i ≤ wo.retryBackoff.toInt * 2 ^ j := by
    intro i j hij
    exact Int.mul_le_mul_of_nonneg_left (pow_le_pow_right₀ (by decide) hij) hpos.le
  have hfits : ∀ {i : ℕ}, i < k → wo.retryBackoff.toInt * 2 ^ i < 2 ^ 63 := by
    intro i hi
    exact (hmono (by omega)).trans_lt h
  refine ⟨?_, ?_, ?_⟩
  · simp only [List.forall_mem_map, List.mem_range'_1]
    intro i hi
    rw [Int64.lt_iff_toInt_lt, Output.toInt_backoff hd (hfits (by omega))]
    exact lt_min (Int.mul_pos hpos (by positivity)) (Int64.lt_iff_toInt_lt.mp hmax)
  · simp only [List.forall_mem_map]
    exact fun i _ => Output.backoff_le i
  · rw [List.pairwise_map]
    refine List.Pairwise.imp_of_mem ?_ (List.pairwise_lt_range' 1)
    intro i j hi hj hij
    rw [List.mem_range'_1] at hi hj
    rw [Int64.le_iff_toInt_le, Output.toInt_backoff hd (hfits (by omega)),
      Output.toInt_backoff hd (hfits (by omega))]
    exact min_le_min_right _ (hmono hij.le)

end

/-- The delays of all runs in which every attempt fails are as they should be if and only
if the base still fits when it is shifted for the last delay. -/
theorem retry_waits_good_iff (cfg : OutputConfig) (hbackoff : 0 < cfg.retryBackoff)
    (hretries : 0 < cfg.maxRetries) :
    (∀ succeeds cancelled : ℕ → Bool, (∀ i, succeeds i = false) →
      GoodWaits (newWebhookOutput cfg).maxBackoff
        ((newWebhookOutput cfg).postWithRetry succeeds cancelled).1) ↔
      cfg.retryBackoff.toInt * 2 ^ (cfg.maxRetries.toInt.toNat - 2) < 2 ^ 63 := by
  have hbase : (newWebhookOutput cfg).retryBackoff = cfg.retryBackoff := if_pos hbackoff
  have hmax : (newWebhookOutput cfg).maxRetries = cfg.maxRetries := if_pos hretries
  have hbound : 0 < defaultWebhookMaxBackoff := by decide
  have hwaits := fun (succeeds : ℕ → Bool) (hfail : ∀ i, succeeds i = false) cancelled =>
    (newWebhookOutput cfg).retryLoop_waits hfail cancelled cfg.maxRetries.toInt.toNat 0
      (by rw [hmax, Nat.zero_add])
  constructor
  · intro h
    by_contra hlarge
    obtain ⟨k, -, hrun, hall⟩ := hwaits (fun _ => false) (fun _ => rfl) fun _ => false
    obtain rfl := hall fun _ => rfl
    have hgood := h (fun _ => false) (fun _ => false) fun _ => rfl
    rw [Output.postWithRetry, hmax, hrun] at hgood
    obtain ⟨j, hj, hfirst, hlast⟩ := exists_first_overflow (Int.not_lt.mp hlarge)
    -- the delay at which the base first does not fit is negative
    have hneg := toInt_shiftLeft_neg hfirst hlast
    have hj' : j < cfg.maxRetries.toInt.toNat - 1 := by
      have hbase_lt := cfg.retryBackoff.toInt_lt
      by_contra hge
      have hzero : j = 0 := by omega
      subst hzero
      simp only [pow_zero, mul_one] at hfirst
      omega
    have hwait := hgood.positive _ (List.mem_map_of_mem
      (f := (newWebhookOutput cfg).backoff) (List.mem_range'_1.mpr ⟨Nat.zero_le j, by omega⟩))
    have hle : shiftLeft cfg.retryBackoff j ≤ (newWebhookOutput cfg).maxBackoff := by
      rw [Int64.le_iff_toInt_le]
      exact hneg.le.trans (Int64.lt_iff_toInt_lt.mp hbound).le
    rw [Output.backoff, hbase, if_pos hle, Int64.lt_iff_toInt_lt] at hwait
    exact absurd hwait (Int.not_lt.mpr hneg.le)
  · intro h succeeds cancelled hfail
    obtain ⟨k, hk, hrun, -⟩ := hwaits succeeds hfail cancelled
    rw [Output.postWithRetry, hmax, hrun]
    refine Output.goodWaits_range (by rw [hbase]; exact hbackoff) hbound ?_
    rw [hbase]
    refine lt_of_le_of_lt ?_ h
    exact Int.mul_le_mul_of_nonneg_left (pow_le_pow_right₀ (by decide) (by omega))
      (Int64.lt_iff_toInt_lt.mp hbackoff).le

/-- A base of half a second fits in thirty-six attempts. -/
theorem retry_waits_good_iff_half_second :
    GoodWaits defaultWebhookMaxBackoff
      ((newWebhookOutput { retryBackoff := 500 * millisecond, maxRetries := 36 }).postWithRetry
        (fun _ => false) fun _ => false).1 :=
  (retry_waits_good_iff { retryBackoff := 500 * millisecond, maxRetries := 36 } (by decide)
    (by decide)).mpr (by decide) _ _ fun _ => rfl

/-- With one attempt more the last delay is negative. -/
theorem retry_wait_negative :
    let wo := newWebhookOutput { retryBackoff := 500 * millisecond, maxRetries := 37 }
    wo.backoff 35 < 0 ∧ wo.backoff 35 ∈ (wo.postWithRetry (fun _ => false) fun _ => false).1 := by
  decide +kernel

end Alertmanager.Webhook
