import Mathlib.Data.Int.Notation
import Mathlib.Data.List.Basic
import Mathlib.Tactic.Common

/-! Addresses as text.

    The wrapper turns every `sockaddr` into text with libc and lets picoTCP read the text back. The
    two readers accept disjoint languages on what libc writes: `pico_string_to_ipv6` refuses the
    dotted form, and `pico_string_to_ipv4` refuses every IPv6 text, also one that ends in a dotted
    quad, since a ':' comes first. -/

namespace FdPicotcp.AddressText

/-- A C string in a buffer ends at the first `NUL`. -/
def cString (buf : List Char) : List Char := buf.takeWhile (· ≠ '\x00')

/-- `is_ipv4` looks for a dot. -/
def isIpv4 (address : List Char) : Prop := '.' ∈ address

/-- `is_ipv6` looks for a colon. -/
def isIpv6 (address : List Char) : Prop := ':' ∈ address

instance (address : List Char) : Decidable (isIpv4 address) := inferInstanceAs (Decidable (_ ∈ _))

instance (address : List Char) : Decidable (isIpv6 address) := inferInstanceAs (Decidable (_ ∈ _))

/-- `pico_is_digit` -/
def picoIsDigit (c : Char) : Prop := '0' ≤ c ∧ c ≤ '9'

/-- `pico_is_hex` -/
def picoIsHex (c : Char) : Prop :=
  ('0' ≤ c ∧ c ≤ '9') ∨ ('a' ≤ c ∧ c ≤ 'f') ∨ ('A' ≤ c ∧ c ≤ 'F')

instance (c : Char) : Decidable (picoIsDigit c) := inferInstanceAs (Decidable (_ ∧ _))

instance (c : Char) : Decidable (picoIsHex c) := inferInstanceAs (Decidable (_ ∨ _))

/-- `pico_ipv6_hex_to_dec`: 0 for what is no digit. -/
def picoIpv6HexToDec (c : Char) : ℕ :=
  if '0' ≤ c ∧ c ≤ '9' then c.toNat - '0'.toNat
  else if 'a' ≤ c ∧ c ≤ 'f' then 10 + (c.toNat - 'a'.toNat)
  else if 'A' ≤ c ∧ c ≤ 'F' then 10 + (c.toNat - 'A'.toNat)
  else 0

/-! `pico_string_to_ipv4` -/

/-- The loop: the bytes in `buf`, and the number of dots. -/
def ipv4Loop : List UInt8 → ℕ → List Char → Option (List UInt8 × ℕ)
  | buf, cnt, [] => some (buf, cnt)
  | buf, cnt, p :: ipstr =>
    if 4 ≤ cnt then some (buf, cnt)
    else if picoIsDigit p then
      ipv4Loop (buf.modify cnt fun b => 10 * b + UInt8.ofNat (p.toNat - '0'.toNat)) cnt ipstr
    else if p = '.' then ipv4Loop buf (cnt + 1) ipstr
    else none

/-- Short notations leave out bytes in the middle. -/
def picoStringToIpv4 (ipstr : List Char) : Option (List UInt8) :=
  (ipv4Loop [0, 0, 0, 0] 0 ipstr).bind fun (buf, cnt) =>
    if cnt = 1 then some [buf.getD 0 0, 0, 0, buf.getD 1 0]
    else if cnt = 2 then some [buf.getD 0 0, buf.getD 1 0, 0, buf.getD 2 0]
    else if cnt = 3 then some buf
    else none

/-! `pico_string_to_ipv6` -/

/-- How the reader of IPv6 addresses stops. -/
inductive Ipv6Err where
  | invalid
  /-- an access outside the 16 bytes of `buf` -/
  | overrun
  deriving DecidableEq

/-- The variables of the loop. -/
structure Ipv6Parse where
  buf : List UInt8
  byte : ℕ
  nibble : ℕ
  hex : ℕ
  colons : ℕ
  doublecolon : ℕ

/-- A digit is shifted into its byte. -/
def hexDigit (st : Ipv6Parse) (p : Char) : Except Ipv6Err Ipv6Parse :=
  if st.byte < 16 then .ok { st with
    buf := st.buf.modify st.byte fun b => (b <<< 4) + UInt8.ofNat (picoIpv6HexToDec p)
    nibble := st.nibble + 1
    byte := if (st.nibble + 1) % 2 = 0 then st.byte + 1 else st.byte }
  else .error .overrun

/-- The end of a group of digits: `diff` leading zeros have been left out. -/
def endGroup (st : Ipv6Parse) (p : Char) : Except Ipv6Err Ipv6Parse :=
  let hex := st.hex + 1
  let colons := if p = ':' then st.colons + 1 else st.colons
  let diff : ℤ := hex * 4 - st.nibble
  let next := { st with hex, colons, nibble := hex * 4 }
  let before := st.buf.getD (st.byte - 1) 0
  if diff = 0 then .ok next
  else if diff = 1 then
    if st.byte < 16 then .ok { next with
      buf := (st.buf.modify st.byte (· ||| before <<< 4)).set (st.byte - 1) (before >>> 4)
      byte := st.byte + 1 }
    else .error .overrun
  else if diff = 2 then
    if st.byte < 16 then .ok { next with
      buf := (st.buf.set st.byte before).set (st.byte - 1) 0
      byte := st.byte + 1 }
    else .error .overrun
  else if diff = 3 then
    if st.byte + 1 < 16 then .ok { next with
      buf := (st.buf.set (st.byte + 1) (st.buf.getD st.byte 0)).set st.byte 0
      byte := st.byte + 2 }
    else .error .overrun
  else if diff = 4 then
    if st.doublecolon ≠ 0 ∧ colons ≠ 2 then .error .invalid
    else .ok { next with doublecolon := st.byte }
  else .error .invalid

/-- The last character is always let through and always ends a group. -/
def ipv6Loop : Ipv6Parse → List Char → Except Ipv6Err Ipv6Parse
  | st, [] => .ok st
  | st, p :: ipstr =>
    if picoIsHex p ∨ p = ':' ∨ ipstr = [] then do
      let st ← if picoIsHex p then hexDigit st p else .ok st
      let st ← if p = ':' ∨ ipstr = [] then endGroup st p else .ok st
      ipv6Loop st ipstr
    else .error .invalid

/-- What follows the double colon moves to the end, zeros fill the gap. -/
def picoStringToIpv6 (ipstr : List Char) : Except Ipv6Err (List UInt8) := do
  let st ← ipv6Loop ⟨List.replicate 16 0, 0, 0, 0, 0, 0⟩ ipstr
  if st.colons < 2 then .error .invalid
  else
    let zeros := 16 - st.byte
    .ok (st.buf.take st.doublecolon ++ List.replicate zeros 0 ++
      (st.buf.take st.byte).drop st.doublecolon)

/-! What libc writes -/

/-- A block of memory, from a pointer on. -/
abbrev Memory := ℕ → UInt8

/-- `inet_ntoa`: four decimal numbers. -/
def inetNtoa (sinAddr : Memory) : List Char :=
  Nat.toDigits 10 (sinAddr 0).toNat ++ '.' :: (Nat.toDigits 10 (sinAddr 1).toNat ++
    '.' :: (Nat.toDigits 10 (sinAddr 2).toNat ++ '.' :: Nat.toDigits 10 (sinAddr 3).toNat))

/-- The two bytes of a group. -/
def word (sin6Addr : Memory) (i : ℕ) : ℕ :=
  (sin6Addr (2 * i)).toNat * 256 + (sin6Addr (2 * i + 1)).toNat

/-- The eight groups. -/
def words (sin6Addr : Memory) : List ℕ := (List.range 8).map (word sin6Addr)

/-- The first longest run of zero words, as its place and length; it takes two words to be one. -/
def zeroRun (words : List ℕ) : ℕ × ℕ :=
  let best := (List.range words.length).foldl (fun best i =>
    let len := ((words.drop i).takeWhile (· = 0)).length
    if best.2 < len then (i, len) else best) (0, 0)
  if best.2 < 2 then (0, 0) else best

/-- The words from the `i`-th on; `quad` ends the text of an IPv4 address inside an IPv6 one. -/
def ntopWords (best : ℕ × ℕ) (quad : Option (List Char)) : ℕ → List ℕ → List Char
  | _, [] => []
  | i, w :: ws =>
    if best.1 ≤ i ∧ i < best.1 + best.2 then
      (if i = best.1 then [':'] else []) ++ ntopWords best quad (i + 1) ws
    else
      (if i = 0 then [] else [':']) ++
        (if i = 6 then quad else none).getD (Nat.toDigits 16 w ++ ntopWords best quad (i + 1) ws)

/-- `inet_ntop(AF_INET6, sin6_addr, _, size)`; `none` if the text and its `NUL` do not fit. -/
def inetNtop (sin6Addr : Memory) (size : ℕ) : Option (List Char) :=
  let best := zeroRun (words sin6Addr)
  let embedded := best.1 = 0 ∧ (best.2 = 6 ∨ (best.2 = 5 ∧ word sin6Addr 5 = 0xffff))
  let quad := if embedded then some (inetNtoa fun i => sin6Addr (12 + i)) else none
  let text := ntopWords best quad 0 (words sin6Addr) ++ if best.1 + best.2 = 8 then [':'] else []
  if size < text.length + 1 then none else some text

/-! The readers on the texts of libc -/

theorem isDigit_iff {c : Char} : c.isDigit ↔ picoIsDigit c := by
  simp [Char.isDigit, picoIsDigit, Char.le_def, UInt32.le_iff_toNat_le]

theorem picoIsHex_of_digit {c : Char} (h : picoIsDigit c) : picoIsHex c := .inl h

theorem digits_of_byte (b : UInt8) :
    (∀ c ∈ Nat.toDigits 10 b.toNat, picoIsDigit c) ∧ (Nat.toDigits 10 b.toNat).length ≤ 3 := by
  refine ⟨fun c hc => ?_, ?_⟩
  · exact isDigit_iff.mp (Nat.isDigit_of_mem_toDigits (by decide) (by decide) hc)
  · rw [Nat.length_toDigits_le_iff (by decide) (by decide)]
    have hb := b.toNat_lt
    omega

theorem hex_of_word (w : ℕ) : ∀ c ∈ Nat.toDigits 16 w, picoIsHex c := by
  have hdigit : ∀ d < 16, picoIsHex d.digitChar := by decide
  induction w using Nat.strongRecOn with
  | ind w ih =>
    intro c hc
    rw [Nat.toDigits_eq_if (by decide)] at hc
    split at hc
    · next hlt =>
      rw [List.mem_singleton] at hc
      exact hc ▸ hdigit w hlt
    · rw [List.mem_append, List.mem_singleton] at hc
      rcases hc with hc | hc
      · exact ih (w / 16) (by omega) c hc
      · exact hc ▸ hdigit _ (Nat.mod_lt _ (by decide))

theorem isIpv4_inetNtoa (sinAddr : Memory) : isIpv4 (inetNtoa sinAddr) := by
  simp [isIpv4, inetNtoa]

/-- The first ':' ends the loop before any dot is counted. -/
theorem ipv4Loop_colon {ds rest : List Char} (hds : ∀ c ∈ ds, picoIsHex c) (buf : List UInt8) :
    ipv4Loop buf 0 (ds ++ ':' :: rest) = none := by
  induction ds generalizing buf with
  | nil => rfl
  | cons d ds ih =>
    have hdot : d ≠ '.' := by
      rintro rfl
      exact absurd (hds _ (List.mem_cons_self ..)) (by decide)
    rw [List.cons_append, ipv4Loop, if_neg (by decide), if_neg hdot]
    split
    · exact ih (fun c hc => hds c (List.mem_cons_of_mem _ hc)) _
    · rfl

/-- The text of two words or more starts with hexadecimal digits, or none, and a ':'. -/
theorem ntopWords_colon (best : ℕ × ℕ) (quad : Option (List Char)) (w v : ℕ) (ws : List ℕ) :
    ∃ ds rest, ntopWords best quad 0 (w :: v :: ws) = ds ++ ':' :: rest ∧ ∀ c ∈ ds, picoIsHex c := by
  rw [ntopWords]
  split
  · next hrun =>
    have hfirst : 0 = best.1 := by omega
    exact ⟨[], _, by rw [if_pos hfirst]; rfl, by simp⟩
  · next hrun =>
    -- a run that holds the second word and not the first one starts there
    have hsecond : ∃ rest, ntopWords best quad (0 + 1) (v :: ws) = ':' :: rest := by
      rw [ntopWords]
      split
      · next hrun' =>
        have hstart : 0 + 1 = best.1 := by omega
        exact ⟨_, by rw [if_pos hstart]; rfl⟩
      · exact ⟨_, rfl⟩
    obtain ⟨rest, hrest⟩ := hsecond
    exact ⟨Nat.toDigits 16 w, rest, by simp [hrest], hex_of_word w⟩

theorem picoStringToIpv4_words (sin6Addr : Memory) (best : ℕ × ℕ) (quad : Option (List Char))
    (tail : List Char) : picoStringToIpv4 (ntopWords best quad 0 (words sin6Addr) ++ tail) = none := by
  obtain ⟨ds, rest, hwords, hds⟩ := ntopWords_colon best quad (word sin6Addr 0) (word sin6Addr 1)
    ((List.range' 2 6).map (word sin6Addr))
  have hsplit : words sin6Addr =
    word sin6Addr 0 :: word sin6Addr 1 :: (List.range' 2 6).map (word sin6Addr) := rfl
  rw [picoStringToIpv4, hsplit, hwords, List.append_assoc, List.cons_append, ipv4Loop_colon hds]
  rfl

/-- picoTCP does not read the text of an IPv6 address as an IPv4 one. -/
theorem picoStringToIpv4_inetNtop {sin6Addr : Memory} {size : ℕ} {text : List Char}
    (h : inetNtop sin6Addr size = some text) : picoStringToIpv4 text = none := by
  simp only [inetNtop, Option.ite_none_left_eq_some, Option.some.injEq] at h
  obtain ⟨-, rfl⟩ := h
  exact picoStringToIpv4_words ..

/-- Digits up to a dot: `pico_string_to_ipv6` stays inside its buffer and then gives up. -/
theorem ipv6Loop_dot {ds rest : List Char} (hds : ∀ c ∈ ds, picoIsDigit c) (hrest : rest ≠ [])
    {st : Ipv6Parse} (hbyte : 2 * st.byte ≤ st.nibble) (hroom : st.nibble + ds.length < 32) :
    ipv6Loop st (ds ++ '.' :: rest) = .error .invalid := by
  induction ds generalizing st with
  | nil =>
    rw [List.nil_append, ipv6Loop, if_neg]
    rintro (hhex | hcolon | hend)
    · exact absurd hhex (by decide)
    · exact absurd hcolon (by decide)
    · exact hrest hend
  | cons d ds ih =>
    have hd : picoIsDigit d := hds d (List.mem_cons_self ..)
    have hcolon : d ≠ ':' := by
      rintro rfl
      exact absurd hd (by decide)
    have hmore : ds ++ '.' :: rest ≠ [] := by simp
    rw [List.length_cons] at hroom
    rw [List.cons_append, ipv6Loop, if_pos (.inl (picoIsHex_of_digit hd)),
      if_pos (picoIsHex_of_digit hd), hexDigit, if_pos (by omega)]
    simp only [bind, Except.bind, hcolon, hmore, or_self, if_false]
    refine ih (fun c hc => hds c (List.mem_cons_of_mem _ hc)) ?_ ?_
    · simp only
      split <;> omega
    · simp only
      omega

/-- picoTCP does not read the text of an IPv4 address as an IPv6 one. -/
theorem picoStringToIpv6_inetNtoa (sinAddr : Memory) :
    picoStringToIpv6 (inetNtoa sinAddr) = .error .invalid := by
  obtain ⟨hdigits, hlength⟩ := digits_of_byte (sinAddr 0)
  rw [picoStringToIpv6, inetNtoa, ipv6Loop_dot hdigits (by simp) (by simp) (by simp only; omega)]
  rfl

end FdPicotcp.AddressText
