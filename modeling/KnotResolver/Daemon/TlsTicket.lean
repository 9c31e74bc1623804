import KnotResolver.Rrset

/-!
# Rotation of the TLS session ticket key (`daemon/tls_session_ticket-srv.c`)

The key that encrypts TLS session tickets changes once per epoch of `TST_KEY_LIFETIME` seconds of
wall-clock time. `tst_key_check` reads the time and computes the epoch. `tst_key_update` then
recomputes the key when the epoch differs from the one at the head of `hash_data`, or when
forced, as the first check is. Last, the check starts a timer for the next one, `remain_ms`
milliseconds later.

The delay is whole seconds to the next epoch, plus a rounded millisecond remainder, plus one
millisecond. It is between 1 ms and `TST_KEY_LIFETIME + 1` seconds, and the next check lands
between 499 and 1498 microseconds after the epoch starts (`tstKeyCheck_spec`). So if each timer
fires on time, the checks go through the epochs one by one, and each check recomputes the key
(`tstChecks_eq`). The end of the next epoch is computed in `time_t`, and it overflows for a
time within `TST_KEY_LIFETIME` seconds of the end of `time_t`. That overflow is undefined
behaviour (`tstKeyCheck_time_overflow`).

`time_t` arithmetic is on `Int`, and a result out of the 64-bit range is `none`. The key itself,
hashed from the secret or drawn at random, is not modelled; only whether it is recomputed is.
A failure to read the time or to start the timer is not modelled either.
-/

namespace KnotResolver.Daemon

/-- `TST_KEY_LIFETIME`, in seconds. -/
def tstKeyLifetime : Int := 4096

/-- `sizeof(time_t)`. -/
def sizeofTimeT : Nat := 8

/-- A `time_t` result: `none` when it leaves the range of a signed 64-bit integer, where the C
arithmetic is undefined. -/
def timeT (x : Int) : Option Int := if -2 ^ 63 ≤ x ∧ x < 2 ^ 63 then some x else none

/-- `struct timeval` as `gettimeofday` fills it. -/
structure Timeval where
  tvSec : Int
  tvUsec : Int
  deriving DecidableEq, Repr

/-- The part of `tst_ctx_t` that the rotation reads and writes: the epoch at the head of
`hash_data`, and `hash_len`. -/
structure TstCtx where
  hashEpoch : Int
  hashLen : Nat
  deriving DecidableEq, Repr

/-- `tst_key_update`: whether the key is recomputed, and the context after it. `none` is the
failed `assert(!EINVAL)` when `hash_data` cannot hold an epoch. The epoch is compared with
`memcmp`, so as a value. -/
def tstKeyUpdate (ctx : TstCtx) (epoch : Int) (forceUpdate : Bool) : Option (Bool × TstCtx) :=
  if ctx.hashLen < sizeofTimeT then none
  else if !forceUpdate && ctx.hashEpoch == epoch then some (false, ctx)
  else some (true, { ctx with hashEpoch := epoch })

/-- `tst_key_check` at the time `now`: whether the key was recomputed, the context after it, and
`remain_ms`, the delay of the timer it starts. `none` is undefined behaviour or a failed
assertion. -/
def tstKeyCheck (ctx : TstCtx) (now : Timeval) (forceUpdate : Bool) :
    Option (Bool × TstCtx × UInt64) := do
  let epoch := now.tvSec.tdiv tstKeyLifetime
  let (updated, ctx) ← tstKeyUpdate ctx epoch forceUpdate
  -- reschedule
  let tvSecNext ← timeT ((epoch + 1) * tstKeyLifetime)
  let msUntilSecond : UInt64 := UInt64.ofInt (1000 - (now.tvUsec + 501).tdiv 1000)
  let secs ← timeT (tvSecNext - now.tvSec)
  let secs ← timeT (secs - 1)
  -- +1 because we don't want to wake up half a millisecond before the epoch
  let remainMs := UInt64.ofInt secs * 1000 + msUntilSecond + 1
  if remainMs.toNat < (tstKeyLifetime.toNat + 1) * 1000 then some (updated, ctx, remainMs)
  else none

/-- `tst_key_create`, as far as the rotation goes: `hash_len` is `sizeof(time_t)` plus the length
of the secret, and the epoch at the head of `hash_data` is whatever the allocation held. `none` is
the failed `assert(!EINVAL)` on a secret too long for `hash_len`. -/
def tstKeyCreate (garbage : Int) (secretLen : Nat) : Option TstCtx :=
  let hashLen := sizeofTimeT + secretLen
  if secretLen ≠ 0 ∧ hashLen > 65535 then none else some ⟨garbage, hashLen⟩

/-- The checks from the one at `now`, a time in microseconds, with each timer firing exactly
`remain_ms` after the check that started it: for each check, whether it recomputed the key, and
its epoch. `tls_session_ticket_ctx_create` forces the first check. -/
def tstChecks (ctx : TstCtx) (now : Nat) (forceUpdate : Bool) : Nat → Option (List (Bool × Int))
  | 0 => some []
  | n + 1 => do
    let tv : Timeval := ⟨(now / 10 ^ 6 : Nat), (now % 10 ^ 6 : Nat)⟩
    let (updated, ctx, remainMs) ← tstKeyCheck ctx tv forceUpdate
    let rest ← tstChecks ctx (now + remainMs.toNat * 1000) false n
    return (updated, tv.tvSec.tdiv tstKeyLifetime) :: rest

/-! ## One check -/

/-- A created context holds an epoch, so `tst_key_update` never fails its assertion. -/
theorem sizeofTimeT_le_of_tstKeyCreate {garbage : Int} {secretLen : Nat} {ctx : TstCtx}
    (h : tstKeyCreate garbage secretLen = some ctx) : sizeofTimeT ≤ ctx.hashLen := by
  unfold tstKeyCreate at h
  dsimp only at h
  split_ifs at h
  cases h
  exact Nat.le_add_right _ _

/-- The key is recomputed when forced or when the epoch differs from the one stored, and the
epoch is stored. -/
theorem tstKeyUpdate_eq {ctx : TstCtx} (hlen : sizeofTimeT ≤ ctx.hashLen) (epoch : Int)
    (forceUpdate : Bool) :
    tstKeyUpdate ctx epoch forceUpdate =
      some (forceUpdate || ctx.hashEpoch != epoch, { ctx with hashEpoch := epoch }) := by
  unfold tstKeyUpdate
  rw [if_neg (by omega)]
  by_cases h : ctx.hashEpoch = epoch
  · -- the context is left as it is, and it already holds the epoch
    have hctx : { ctx with hashEpoch := epoch } = ctx := by rw [← h]
    cases forceUpdate <;> simp [h, hctx]
  · cases forceUpdate <;> simp [h]

theorem toNat_ofInt_of_lt {a : Int} (h0 : 0 ≤ a) (h : a < 2 ^ 64) :
    (UInt64.ofInt a).toNat = a.toNat := by
  rw [UInt64.ofInt, UInt64.toNat_ofNat', Int.emod_eq_of_lt h0 h]
  omega

/-- A delay of `secs` seconds and `ms` milliseconds, plus one, does not wrap in `uint64_t`. -/
theorem toNat_remainMs {secs ms : Int} (hs0 : 0 ≤ secs) (hs : secs < 2 ^ 20) (hm0 : 0 ≤ ms)
    (hm : ms ≤ 1000) :
    (UInt64.ofInt secs * 1000 + UInt64.ofInt ms + 1).toNat = secs.toNat * 1000 + ms.toNat + 1 := by
  rw [UInt64.toNat_add, UInt64.toNat_add, UInt64.toNat_mul, toNat_ofInt_of_lt hs0 (by omega),
    toNat_ofInt_of_lt hm0 (by omega)]
  simp only [UInt64.reduceToNat]
  omega

/-- One check at a time of `tvSec` seconds and `tvUsec` microseconds, before the end of the last
epoch `time_t` can hold. It recomputes the key when forced or in a new epoch. The next check
is between 1 ms and `TST_KEY_LIFETIME + 1` seconds later, and it lands between 499 and 1498
microseconds into the next epoch. -/
theorem tstKeyCheck_spec {ctx : TstCtx} (hlen : sizeofTimeT ≤ ctx.hashLen) {tvSec tvUsec : Int}
    (hs0 : 0 ≤ tvSec) (hs : tvSec < 2 ^ 63 - tstKeyLifetime) (hu0 : 0 ≤ tvUsec)
    (hu : tvUsec < 10 ^ 6) (forceUpdate : Bool) :
    ∃ remainMs : UInt64, tstKeyCheck ctx ⟨tvSec, tvUsec⟩ forceUpdate =
        some (forceUpdate || ctx.hashEpoch != tvSec / tstKeyLifetime,
          { ctx with hashEpoch := tvSec / tstKeyLifetime }, remainMs) ∧
      1 ≤ remainMs.toNat ∧ remainMs.toNat < (tstKeyLifetime.toNat + 1) * 1000 ∧
      ((tvSec / tstKeyLifetime + 1) * tstKeyLifetime) * 10 ^ 6 + 499 ≤
        tvSec * 10 ^ 6 + tvUsec + remainMs.toNat * 1000 ∧
      tvSec * 10 ^ 6 + tvUsec + remainMs.toNat * 1000 <
        ((tvSec / tstKeyLifetime + 1) * tstKeyLifetime) * 10 ^ 6 + 1499 := by
  have hlife : tstKeyLifetime = 4096 := rfl
  rw [hlife] at hs ⊢
  -- the epoch, its end, and the whole seconds left before it
  have hnext : timeT ((tvSec / 4096 + 1) * 4096) = some ((tvSec / 4096 + 1) * 4096) :=
    if_pos (by omega)
  have hdiff : timeT ((tvSec / 4096 + 1) * 4096 - tvSec) =
      some ((tvSec / 4096 + 1) * 4096 - tvSec) := if_pos (by omega)
  have hsecs : timeT ((tvSec / 4096 + 1) * 4096 - tvSec - 1) =
      some ((tvSec / 4096 + 1) * 4096 - tvSec - 1) := if_pos (by omega)
  -- the milliseconds left in the second, rounded
  have hq : (tvUsec + 501).tdiv 1000 = (tvUsec + 501) / 1000 :=
    Int.tdiv_eq_ediv_of_nonneg (by omega)
  have hremain := @toNat_remainMs ((tvSec / 4096 + 1) * 4096 - tvSec - 1)
    (1000 - (tvUsec + 501) / 1000) (by omega) (by omega) (by omega) (by omega)
  have hbound : (UInt64.ofInt ((tvSec / 4096 + 1) * 4096 - tvSec - 1) * 1000 +
      UInt64.ofInt (1000 - (tvUsec + 501) / 1000) + 1).toNat < (Int.toNat 4096 + 1) * 1000 := by
    rw [hremain]
    omega
  refine ⟨_, ?_, ?_, hbound, ?_, ?_⟩
  · unfold tstKeyCheck
    rw [Int.tdiv_eq_ediv_of_nonneg hs0, hlife]
    dsimp only
    rw [tstKeyUpdate_eq hlen]
    simp only [Option.bind_eq_bind, Option.bind_some, hnext, hq, hdiff, hsecs, if_pos hbound]
  all_goals rw [hremain]; omega

/-! ## The run of checks -/

/-- The first check of a run, in epoch `e0`, and the rest of the run, which starts in the next
epoch with `e0` stored. -/
theorem tstChecks_succ {ctx : TstCtx} (hlen : sizeofTimeT ≤ ctx.hashLen) (now : Nat)
    (forceUpdate : Bool) (n : Nat) (hn : now / 10 ^ 6 / 4096 + 2 ≤ 2 ^ 51) :
    ∃ next : Nat, next / 10 ^ 6 / 4096 = now / 10 ^ 6 / 4096 + 1 ∧
      tstChecks ctx now forceUpdate (n + 1) =
        (tstChecks { ctx with hashEpoch := ((now / 10 ^ 6 / 4096 : Nat) : Int) } next false n).map
          ((forceUpdate || ctx.hashEpoch != ((now / 10 ^ 6 / 4096 : Nat) : Int),
            ((now / 10 ^ 6 / 4096 : Nat) : Int)) :: ·) := by
  have hlife : tstKeyLifetime = 4096 := rfl
  -- the time of the check, in seconds and microseconds
  have hsec : ((now / 10 ^ 6 : Nat) : Int) < 2 ^ 63 - tstKeyLifetime := by
    rw [hlife]
    omega
  have husec : ((now % 10 ^ 6 : Nat) : Int) < 10 ^ 6 := by omega
  obtain ⟨remainMs, hcheck, -, -, hlo, hhi⟩ := tstKeyCheck_spec hlen
    (Int.natCast_nonneg (now / 10 ^ 6)) hsec (Int.natCast_nonneg (now % 10 ^ 6)) husec forceUpdate
  -- the epoch of the check, as `Nat`
  have hepoch : ((now / 10 ^ 6 : Nat) : Int) / tstKeyLifetime = ((now / 10 ^ 6 / 4096 : Nat) : Int) := by
    rw [hlife]
    omega
  rw [hepoch, hlife] at hlo hhi
  rw [hepoch] at hcheck
  refine ⟨now + remainMs.toNat * 1000, by omega, ?_⟩
  rw [tstChecks, hcheck]
  simp only [Option.bind_eq_bind, Option.bind_some, Int.tdiv_eq_ediv_of_nonneg (Int.natCast_nonneg _),
    hepoch]
  cases tstChecks { ctx with hashEpoch := ((now / 10 ^ 6 / 4096 : Nat) : Int) }
      (now + remainMs.toNat * 1000) false n <;> rfl

/-- Checks whose timers fire on time go through the epochs `e0`, `e0 + 1`, ... one check each, as
long as the epochs stay within `time_t`. Each check recomputes the key: the first one when forced
or when its epoch is not the one stored, every later one because its epoch is new. -/
theorem tstChecks_eq {ctx : TstCtx} (hlen : sizeofTimeT ≤ ctx.hashLen) (n : Nat) :
    ∀ (now : Nat) (forceUpdate : Bool), now / 10 ^ 6 / 4096 + n + 2 ≤ 2 ^ 51 →
      tstChecks ctx now forceUpdate (n + 1) =
        some ((forceUpdate || ctx.hashEpoch != ((now / 10 ^ 6 / 4096 : Nat) : Int),
            ((now / 10 ^ 6 / 4096 : Nat) : Int)) ::
          (List.range n).map fun k => (true, ((now / 10 ^ 6 / 4096 + 1 + k : Nat) : Int))) := by
  induction n generalizing ctx with
  | zero =>
    intro now forceUpdate hn
    obtain ⟨next, -, h⟩ := tstChecks_succ hlen now forceUpdate 0 (by omega)
    rw [h]
    rfl
  | succ n ih =>
    intro now forceUpdate hn
    obtain ⟨next, hnext, h⟩ := tstChecks_succ hlen now forceUpdate (n + 1) (by omega)
    -- the rest of the run starts in the next epoch, with the previous one stored
    have hrest := @ih { ctx with hashEpoch := ((now / 10 ^ 6 / 4096 : Nat) : Int) } hlen next false
      (by omega)
    -- the stored epoch is the one before, so the second check recomputes the key
    have hnew : (false || ((now / 10 ^ 6 / 4096 : Nat) : Int) !=
        ((now / 10 ^ 6 / 4096 + 1 : Nat) : Int)) = true := by
      rw [Bool.false_or, bne_iff_ne, ne_eq]
      omega
    have hshift : (fun k => (true, ((now / 10 ^ 6 / 4096 + 1 + 1 + k : Nat) : Int))) =
        (fun k => (true, ((now / 10 ^ 6 / 4096 + 1 + k : Nat) : Int))) ∘ Nat.succ := by
      funext k
      rw [Function.comp_apply, show now / 10 ^ 6 / 4096 + 1 + 1 + k =
        now / 10 ^ 6 / 4096 + 1 + k.succ by omega]
    rw [h, hrest, hnext, List.range_succ_eq_map, List.map_cons, List.map_map, ← hshift]
    simp only [Option.map_some, hnew, Nat.add_zero]

/-- The checks of the key of a created context at any time before the end of `time_t`. Each
schedules the next between 1 ms and `TST_KEY_LIFETIME + 1` seconds later, strictly after the
next epoch starts and less than 2 ms after it. If the timers fire on time, the run from any time
goes through the epochs one check each. The key is recomputed at the first check of every new
epoch, and at a check in the epoch stored only when forced. -/
theorem tstKeyCheck_once_per_epoch :
    (∀ (ctx : TstCtx) (tvSec tvUsec : Int) (forceUpdate : Bool), sizeofTimeT ≤ ctx.hashLen →
      0 ≤ tvSec → tvSec < 2 ^ 63 - tstKeyLifetime → 0 ≤ tvUsec → tvUsec < 10 ^ 6 →
      ∃ remainMs : UInt64, tstKeyCheck ctx ⟨tvSec, tvUsec⟩ forceUpdate =
          some (forceUpdate || ctx.hashEpoch != tvSec / tstKeyLifetime,
            { ctx with hashEpoch := tvSec / tstKeyLifetime }, remainMs) ∧
        1 ≤ remainMs.toNat ∧ remainMs.toNat < (tstKeyLifetime.toNat + 1) * 1000 ∧
        ((tvSec / tstKeyLifetime + 1) * tstKeyLifetime) * 10 ^ 6 <
          tvSec * 10 ^ 6 + tvUsec + remainMs.toNat * 1000 ∧
        tvSec * 10 ^ 6 + tvUsec + remainMs.toNat * 1000 <
          ((tvSec / tstKeyLifetime + 1) * tstKeyLifetime) * 10 ^ 6 + 2000) ∧
    (∀ (ctx : TstCtx) (n now : Nat) (forceUpdate : Bool), sizeofTimeT ≤ ctx.hashLen →
      now / 10 ^ 6 / 4096 + n + 2 ≤ 2 ^ 51 →
      tstChecks ctx now forceUpdate (n + 1) =
        some ((forceUpdate || ctx.hashEpoch != ((now / 10 ^ 6 / 4096 : Nat) : Int),
            ((now / 10 ^ 6 / 4096 : Nat) : Int)) ::
          (List.range n).map fun k => (true, ((now / 10 ^ 6 / 4096 + 1 + k : Nat) : Int)))) := by
  refine ⟨?_, fun ctx n now forceUpdate hlen hn => tstChecks_eq hlen n now forceUpdate hn⟩
  intro ctx tvSec tvUsec forceUpdate hlen hs0 hs hu0 hu
  obtain ⟨remainMs, hcheck, hpos, hlt, hlo, hhi⟩ := tstKeyCheck_spec hlen hs0 hs hu0 hu forceUpdate
  exact ⟨remainMs, hcheck, hpos, hlt, by omega, by omega⟩

/-- Three checks of the context `tst_key_create` makes for a 32-byte secret, from a reading 1 µs
before the second 1700000001, in epoch 415039, with the timers firing on time: one check in each
of three epochs, each recomputing the key. -/
theorem tstKeyCheck_once_per_epoch_three :
    tstKeyCreate 0 32 = some ⟨0, 40⟩ ∧ sizeofTimeT ≤ (⟨0, 40⟩ : TstCtx).hashLen ∧
      1700000000999999 / 10 ^ 6 / 4096 + 2 + 2 ≤ 2 ^ 51 ∧
      tstChecks ⟨0, 40⟩ 1700000000999999 true 3 =
        some [(true, 415039), (true, 415040), (true, 415041)] := by
  have hc : tstKeyCreate 0 32 = some ⟨0, 40⟩ := by decide
  have hlen := sizeofTimeT_le_of_tstKeyCreate hc
  refine ⟨hc, hlen, by decide, ?_⟩
  rw [tstKeyCheck_once_per_epoch.2 ⟨0, 40⟩ 2 1700000000999999 true hlen (by decide)]
  decide

/-- A check one second before the end of `time_t`: the end of its epoch does not fit in `time_t`,
and computing it is undefined behaviour. -/
theorem tstKeyCheck_time_overflow :
    timeT (2 ^ 63 - 1) = some (2 ^ 63 - 1) ∧
      tstKeyCheck ⟨0, sizeofTimeT⟩ ⟨2 ^ 63 - 1, 0⟩ false = none := by
  decide

end KnotResolver.Daemon
