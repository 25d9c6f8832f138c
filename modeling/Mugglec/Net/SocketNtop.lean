import Mugglec.Base.Utils
import Mugglec.Machinery.CBuffer
import Mugglec.Machinery.CText

/-!
# Net/SocketNtop — the text of a socket address (`net/socket_utils.c`)

An address is `127.0.0.1:80` or `[::1]:80`.  For the latter `inet_ntop` is given the place behind
the bracket **with the size of the whole buffer**.
-/

namespace Mugglec

open CBuffer CText

structure SockAddr where
  v6 : Bool
  host : List Char
  port : ℕ
  nul_notMem : nul ∉ host
  port_lt : port < 2 ^ 16

def inetNtop (host part buf : List Char) (off size : ℕ) : Option (Bool × List Char) :=
  if host.length + 1 ≤ size then (store buf off (host ++ [nul])).map (true, ·)
  else (store buf off (part.take size)).map (false, ·)

def ntopHost (sa : SockAddr) (part buf : List Char) (off : ℕ) (sep : List Char) (hostOnly : Bool)
    (room : ℕ → ℕ → ℕ) : Option (Bool × List Char) := do
  let (ok, buf) ← inetNtop sa.host part buf off (u32 buf.length)
  if ok = false then return (false, buf)
  if hostOnly then return (true, buf)
  let offset := (← cstr nul buf).length
  if i32 (u32 buf.length) - i32 (u32 offset) < 8 then return (false, buf)
  return (true, ← store buf offset
    (snprintf (room buf.length offset) (sep ++ decimal sa.port) ++ [nul]))

def socketNtop (sa : SockAddr) (part buf : List Char) (hostOnly : Bool) :
    Option (Bool × List Char) :=
  if sa.v6 then do
    let remain := fun bufsize offset => (i32 (u32 bufsize) - i32 (u32 offset)).toNat
    if hostOnly then ntopHost sa part buf 0 [']', ':'] true remain
    else ntopHost sa part (← store buf 0 ['[']) 1 [']', ':'] false remain
  else ntopHost sa part buf 0 [':'] hostOnly fun bufsize offset => bufsize - offset

def SockAddr.text (sa : SockAddr) (hostOnly : Bool) : List Char :=
  if hostOnly then sa.host
  else if sa.v6 then '[' :: sa.host ++ [']', ':'] ++ decimal sa.port
  else sa.host ++ [':'] ++ decimal sa.port

theorem length_decimal_port {port : ℕ} (h : port < 2 ^ 16) : (decimal port).length ≤ 5 := by
  by_cases hp : port = 0
  · simp [hp, decimal]
  · rw [length_decimal hp]
    exact Nat.log_lt_of_lt_pow hp (h.trans (by decide))

variable {buf pre : List Char}

theorem ntopHost_iff (sa : SockAddr) (part sep : List Char) (hostOnly : Bool) (room : ℕ → ℕ → ℕ)
    (hpre : pre <+: buf) (hnul : nul ∉ pre) (hpre1 : pre.length ≤ 1) (hsep : sep.length ≤ 2)
    (hroom : ∀ n, 8 ≤ i32 (u32 buf.length) - i32 (u32 n) → n ≤ u32 buf.length →
      8 ≤ room buf.length n) :
    (∃ ret buf', ntopHost sa part buf pre.length sep hostOnly room = some (ret, buf') ∧
      (ret = true → (pre ++ sa.host ++ if hostOnly then [] else sep ++ decimal sa.port) ++ [nul] <+:
        buf')) ↔
    pre.length + (if sa.host.length + 1 ≤ u32 buf.length then sa.host.length + 1
      else min (u32 buf.length) part.length) ≤ buf.length := by
  by_cases hhost : sa.host.length + 1 ≤ u32 buf.length
  · rw [if_pos hhost]
    constructor
    · rintro ⟨ret, buf', hcall, -⟩
      by_contra hlt
      rw [ntopHost, inetNtop, if_pos hhost, store_eq_none (by simpa using hlt)] at hcall
      cases hcall
    · intro hle
      obtain ⟨buf₁, hstore, hpre₁, hlen₁⟩ := exists_store (sa.host ++ [nul]) hpre
        (by simpa using hle)
      have hnul₁ : nul ∉ pre ++ sa.host := by simp [hnul, sa.nul_notMem]
      have hlen : (pre ++ sa.host).length ≤ u32 buf.length := by
        rw [List.length_append]
        omega
      rw [← List.append_assoc] at hpre₁
      simp only [ntopHost, inetNtop, if_pos hhost, hstore]
      generalize pre ++ sa.host = q at hpre₁ hnul₁ hlen ⊢
      cases hostOnly with
      | true => exact ⟨true, buf₁, rfl, fun _ => by simpa using hpre₁⟩
      | false =>
        simp only [Option.bind_eq_bind, Option.map_some, Option.bind_some, Bool.true_eq_false,
          Bool.false_eq_true, if_false, cstr_of_prefix hpre₁ hnul₁, hlen₁]
        by_cases hleft : i32 (u32 buf.length) - i32 (u32 q.length) < 8
        · exact ⟨false, buf₁, by simp [hleft], by simp⟩
        have hport := length_decimal_port sa.port_lt
        have hfits : (sep ++ decimal sa.port).length < room buf.length q.length := by
          have := hroom q.length (by omega) hlen
          rw [List.length_append]
          omega
        have hend : q.length + (sep ++ decimal sa.port ++ [nul]).length ≤ buf₁.length := by
          simp only [i32, u32] at hleft hlen
          simp only [List.length_append, List.length_singleton, hlen₁]
          split_ifs at hleft <;> omega
        obtain ⟨buf₂, hstore₂, hpre₂, -⟩ :=
          exists_store _ ((List.prefix_append ..).trans hpre₁) hend
        refine ⟨true, buf₂, ?_, fun _ => by simpa using hpre₂⟩
        rw [if_neg hleft, snprintf_of_lt hfits, hstore₂]
        rfl
  · rw [if_neg hhost, ← List.length_take]
    simp only [ntopHost, inetNtop, if_neg hhost]
    constructor
    · rintro ⟨ret, buf', hcall, -⟩
      by_contra hlt
      rw [store_eq_none (not_le.mp hlt)] at hcall
      cases hcall
    · intro hle
      obtain ⟨buf₁, hstore, -⟩ := exists_store _ hpre hle
      exact ⟨false, buf₁, by rw [hstore]; rfl, by simp⟩

def SockAddr.Sound (sa : SockAddr) (part buf : List Char) (hostOnly : Bool) : Prop :=
  ∃ ret buf', socketNtop sa part buf hostOnly = some (ret, buf') ∧
    (ret = true → sa.text hostOnly ++ [nul] <+: buf')

/-- **A call is sound unless what `inet_ntop` writes takes all the bytes behind the bracket.** -/
theorem socketNtop_sound_iff (sa : SockAddr) (part buf : List Char) (hbuf : 1 ≤ buf.length)
    (hostOnly : Bool) :
    sa.Sound part buf hostOnly ↔
      (sa.v6 = true → hostOnly = false → buf.length < 2 ^ 32 →
        sa.host.length + 1 ≠ buf.length ∧
        (buf.length < sa.host.length + 1 → part.length < buf.length)) := by
  have hsize : u32 buf.length ≤ buf.length := Nat.mod_le ..
  -- nothing in front of the host: what `inet_ntop` is told of is in the buffer
  have hplain : ([] : List Char).length + (if sa.host.length + 1 ≤ u32 buf.length then
      sa.host.length + 1 else min (u32 buf.length) part.length) ≤ buf.length := by
    rw [List.length_nil]
    split_ifs <;> omega
  let remain : ℕ → ℕ → ℕ := fun bufsize offset => (i32 (u32 bufsize) - i32 (u32 offset)).toNat
  have hremain : ∀ n, 8 ≤ i32 (u32 buf.length) - i32 (u32 n) → n ≤ u32 buf.length →
      8 ≤ remain buf.length n := fun n h _ => Int.le_toNat (by omega) |>.mpr h
  simp only [SockAddr.Sound, socketNtop, SockAddr.text]
  cases sa.v6 with
  | false =>
    obtain ⟨ret, buf', hcall, htext⟩ := (ntopHost_iff sa part [':'] hostOnly
      (fun bufsize offset => bufsize - offset) List.nil_prefix (by simp) (by simp) (by simp)
      fun n h hn => by
        simp only [i32, u32] at h hn
        split_ifs at h <;> omega).mpr hplain
    refine iff_of_true ⟨ret, buf', hcall, fun h => ?_⟩ (by simp)
    cases hostOnly <;> simpa using htext h
  | true =>
    cases hostOnly with
    | true =>
      obtain ⟨ret, buf', hcall, htext⟩ := (ntopHost_iff sa part [']', ':'] true remain
        List.nil_prefix (by simp) (by simp) (by simp) hremain).mpr hplain
      exact iff_of_true ⟨ret, buf', hcall, fun h => by simpa using htext h⟩ (by simp)
    | false =>
      obtain ⟨buf₁, hstore, hpre, hlen⟩ := exists_store_zero ['['] hbuf
      have hiff := ntopHost_iff sa part [']', ':'] false remain hpre (by decide) le_rfl (by simp)
        (by rwa [hlen])
      rw [hlen, List.length_singleton] at hiff
      simp only [List.cons_append, List.nil_append, List.append_assoc, Bool.false_eq_true,
        if_false] at hiff
      simp only [hstore, Bool.false_eq_true, if_false, if_true, true_implies, Option.bind_eq_bind,
        Option.bind_some, List.cons_append, List.append_assoc, List.nil_append]
      refine hiff.trans ?_
      rcases lt_or_ge buf.length (2 ^ 32) with hlt | hge
      · rw [u32_of_lt hlt]
        by_cases hfit : sa.host.length + 1 ≤ buf.length
        · rw [if_pos hfit]
          omega
        · rw [if_neg hfit]
          omega
      · have : u32 buf.length < 2 ^ 32 := Nat.mod_lt _ (by decide)
        refine iff_of_true ?_ (by omega)
        split_ifs <;> omega

def localhost6 : SockAddr := ⟨true, [':', ':', '1'], 80, by decide, by decide⟩

theorem socketNtop_sound_localhost6 : localhost6.Sound [] (List.replicate 12 'x') false :=
  (socketNtop_sound_iff localhost6 [] (List.replicate 12 'x') (by decide) false).mpr fun _ _ _ =>
    ⟨by decide, by decide⟩

theorem socketNtop_beyond_buffer :
    socketNtop localhost6 [] (List.replicate 4 'x') false = none := by decide

end Mugglec
