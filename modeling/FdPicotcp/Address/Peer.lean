import FdPicotcp.Address.Text
import FdPicotcp.Lib.CInt

/-! The text bridge for IPv4, both ways, and for the address of a peer.

    `bind()` and `connect()` write an IPv4 address with libc and read it with picoTCP; `accept()` writes
    with picoTCP and reads with libc. Every text here is made of groups of digits between separators:
    a reader that gets the value of a group back gets the address back. -/

namespace FdPicotcp.AddressText

/-! picoTCP writes -/

/-- The decimal digits of a byte. -/
def picoIpv4Byte (b : UInt8) : List Char :=
  if 99 < b.toNat then
    [.ofNat ('0'.toNat + b.toNat / 100), .ofNat ('0'.toNat + b.toNat % 100 / 10),
      .ofNat ('0'.toNat + b.toNat % 100 % 10)]
  else if 9 < b.toNat then
    [.ofNat ('0'.toNat + b.toNat / 10), .ofNat ('0'.toNat + b.toNat % 10)]
  else [.ofNat ('0'.toNat + b.toNat)]

/-- `pico_ipv4_to_string` -/
def picoIpv4ToString (ip : Memory) : List Char :=
  (List.range 4).flatMap fun i => picoIpv4Byte (ip i) ++ if i < 3 then ['.'] else []

/-- `pico_ipv6_dec_to_char` -/
def picoIpv6DecToChar (u : UInt8) : Char :=
  if u < 10 then .ofNat ('0'.toNat + u.toNat)
  else if u < 16 then .ofNat ('a'.toNat + (u.toNat - 10))
  else '0'

/-- Every nibble is one character. -/
def picoIpv6ToString (ip : Memory) : List Char :=
  (List.range 32).flatMap fun i =>
    (if i % 4 = 0 ∧ i ≠ 0 then [':'] else []) ++
      [picoIpv6DecToChar (if i % 2 = 0 then ip (i / 2) >>> 4 else ip (i / 2) &&& 0x0F)]

/-! libc reads -/

/-- A number in a base up to 16, after the value `n`. -/
def number (base : ℕ) : ℕ → List Char → Option ℕ
  | n, [] => some n
  | n, c :: cs =>
    if picoIsHex c ∧ picoIpv6HexToDec c < base then number base (base * n + picoIpv6HexToDec c) cs
    else none

/-- A part of the argument of `inet_addr`: decimal, octal after '0', hexadecimal after "0x". -/
def inetPart : List Char → Option ℕ
  | [] => none
  | ['0'] => some 0
  | '0' :: 'x' :: c :: cs | '0' :: 'X' :: c :: cs => number 16 0 (c :: cs)
  | '0' :: cs => number 8 0 cs
  | c :: cs => number 10 0 (c :: cs)

/-- The last part of an address fills the bytes that the others leave. -/
def inetParts : List ℕ → Option ℕ
  | [a] => if a < 256 ^ 4 then some a else none
  | [a, b] => if a < 256 ∧ b < 256 ^ 3 then some (a * 256 ^ 3 + b) else none
  | [a, b, c] =>
    if a < 256 ∧ b < 256 ∧ c < 256 ^ 2 then some ((a * 256 + b) * 256 ^ 2 + c) else none
  | [a, b, c, d] =>
    if a < 256 ∧ b < 256 ∧ c < 256 ∧ d < 256 then some (((a * 256 + b) * 256 + c) * 256 + d) else none
  | _ => none

/-- `inet_addr`, as the bytes of the result in network order; all ones if the text is no address. -/
def inetAddr (cp : List Char) : List UInt8 :=
  match ((cp.splitOn '.').mapM inetPart).bind inetParts with
  | some a => [.ofNat (a / 256 ^ 3), .ofNat (a / 256 ^ 2), .ofNat (a / 256), .ofNat a]
  | none => [255, 255, 255, 255]

/-- One to four hexadecimal digits. -/
def hexGroup (ds : List Char) : Option ℕ :=
  if 1 ≤ ds.length ∧ ds.length ≤ 4 then number 16 0 ds else none

/-- A byte of a dotted quad, without leading zeros. -/
def quadByte (ds : List Char) : Option ℕ :=
  if ds = [] ∨ (ds.head? = some '0' ∧ 1 < ds.length) then none
  else (number 10 0 ds).filter (· < 256)

/-- The words of a text without "::"; the last two may be a dotted quad. -/
def pton6Words : List (List Char) → Option (List ℕ)
  | [] => some []
  | [p] =>
    if '.' ∈ p then
      match (p.splitOn '.').mapM quadByte with
      | some [a, b, c, d] => some [a * 256 + b, c * 256 + d]
      | _ => none
    else (hexGroup p).map ([·])
  | p :: q :: ps => (hexGroup p).bind fun w => (pton6Words (q :: ps)).map (w :: ·)

/-- What stands before and after the first "::". -/
def splitDouble : List Char → Option (List Char × List Char)
  | ':' :: ':' :: cs => some ([], cs)
  | c :: cs => (splitDouble cs).map fun (l, r) => (c :: l, r)
  | [] => none

/-- The words of one side of "::", which may be empty. -/
def pton6Side (cs : List Char) : Option (List ℕ) :=
  if cs = [] then some [] else pton6Words (cs.splitOn ':')

/-- A group in network order. -/
def wordBytes (w : ℕ) : List UInt8 := [.ofNat (w / 256), .ofNat w]

/-- `inet_pton(AF_INET6)` -/
def inetPton (src : List Char) : Option (List UInt8) :=
  match splitDouble src with
  | none => ((pton6Words (src.splitOn ':')).filter (·.length = 8)).map (·.flatMap wordBytes)
  | some (l, r) =>
    if '.' ∈ l then none
    else (pton6Side l).bind fun ls => (pton6Side r).bind fun rs =>
      if ls.length + rs.length < 8 then
        some ((ls ++ List.replicate (8 - ls.length - rs.length) 0 ++ rs).flatMap wordBytes)
      else none

/-! IPv4 -/

theorem picoIpv4Byte_eq (b : UInt8) : picoIpv4Byte b = Nat.toDigits 10 b.toNat := by
  have hall : ∀ n < 256, picoIpv4Byte (.ofNat n) = Nat.toDigits 10 n := by decide +kernel
  have hb := hall b.toNat b.toNat_lt
  rwa [UInt8.ofNat_toNat] at hb

/-- picoTCP and libc write the same text. -/
theorem picoIpv4ToString_eq (ip : Memory) : picoIpv4ToString ip = inetNtoa ip := by
  have hloop : picoIpv4ToString ip = picoIpv4Byte (ip 0) ++ '.' :: (picoIpv4Byte (ip 1) ++
      '.' :: (picoIpv4Byte (ip 2) ++ '.' :: picoIpv4Byte (ip 3))) := by
    simp [picoIpv4ToString, List.range_succ]
  rw [hloop, inetNtoa]
  simp only [picoIpv4Byte_eq]

/-- What digits make of the byte they are added to. -/
def pushDigits (b : UInt8) (ds : List Char) : UInt8 :=
  ds.foldl (fun b d => 10 * b + .ofNat (d.toNat - '0'.toNat)) b

theorem pushDigits_ofNat (ds : List Char) (n : ℕ) :
    pushDigits (.ofNat n) ds = .ofNat (Nat.ofDigitChars 10 ds n) := by
  induction ds generalizing n with
  | nil => rfl
  | cons d ds ih =>
    rw [Nat.ofDigitChars_cons, ← ih]
    simp [pushDigits, UInt8.ofNat_add, UInt8.ofNat_mul]

theorem pushDigits_toDigits (b : UInt8) : pushDigits 0 (Nat.toDigits 10 b.toNat) = b := by
  have h := pushDigits_ofNat (Nat.toDigits 10 b.toNat) 0
  rw [Nat.ofDigitChars_ten_toDigits, UInt8.ofNat_toNat] at h
  exact h

/-- Digits add to the byte that the loop is at. -/
theorem ipv4Loop_digits {ds : List Char} (hds : ∀ c ∈ ds, picoIsDigit c) {cnt : ℕ} (hcnt : cnt < 4)
    (rest : List Char) (buf : List UInt8) : ipv4Loop buf cnt (ds ++ rest) =
      ipv4Loop (buf.modify cnt fun b => pushDigits b ds) cnt rest := by
  induction ds generalizing buf with
  | nil =>
    change _ = ipv4Loop (buf.modify cnt id) cnt rest
    rw [List.modify_id, List.nil_append]
  | cons d ds ih =>
    rw [List.cons_append, ipv4Loop, if_neg (by omega), if_pos (hds d (List.mem_cons_self ..)),
      ih fun c hc => hds c (List.mem_cons_of_mem _ hc), List.modify_modify_eq]
    rfl

theorem ipv4Loop_dot {cnt : ℕ} (hcnt : cnt < 4) (rest : List Char) (buf : List UInt8) :
    ipv4Loop buf cnt ('.' :: rest) = ipv4Loop buf (cnt + 1) rest := by
  rw [ipv4Loop, if_neg (by omega), if_neg (by decide), if_pos rfl]

/-- ROUND TRIP, `bind()` and `connect()`: libc writes an IPv4 address, picoTCP reads it. -/
theorem picoStringToIpv4_inetNtoa (sinAddr : Memory) :
    picoStringToIpv4 (inetNtoa sinAddr) = some [sinAddr 0, sinAddr 1, sinAddr 2, sinAddr 3] := by
  have hdigits : ∀ i, ∀ c ∈ Nat.toDigits 10 (sinAddr i).toNat, picoIsDigit c := fun i =>
    (digits_of_byte (sinAddr i)).1
  have hloop : ipv4Loop [0, 0, 0, 0] 0 (inetNtoa sinAddr) =
      some ([sinAddr 0, sinAddr 1, sinAddr 2, sinAddr 3], 3) := by
    rw [inetNtoa, ipv4Loop_digits (hdigits 0) (by decide), ipv4Loop_dot (by decide),
      ipv4Loop_digits (hdigits 1) (by decide), ipv4Loop_dot (by decide),
      ipv4Loop_digits (hdigits 2) (by decide), ipv4Loop_dot (by decide),
      ← List.append_nil (Nat.toDigits 10 (sinAddr 3).toNat), ipv4Loop_digits (hdigits 3) (by decide)]
    simp [ipv4Loop, pushDigits_toDigits]
  rw [picoStringToIpv4, hloop]
  rfl

theorem dot_notMem_toDigits (b : UInt8) : '.' ∉ Nat.toDigits 10 b.toNat := fun h =>
  absurd ((digits_of_byte b).1 _ h) (by decide)

/-- A decimal number without leading zeros is read as decimal. -/
theorem inetPart_toDigits (b : UInt8) : inetPart (Nat.toDigits 10 b.toNat) = some b.toNat := by
  have hall : ∀ n < 256, inetPart (Nat.toDigits 10 n) = some n := by decide +kernel
  exact hall b.toNat b.toNat_lt

theorem splitOn_inetNtoa (ip : Memory) : (inetNtoa ip).splitOn '.' =
    [Nat.toDigits 10 (ip 0).toNat, Nat.toDigits 10 (ip 1).toNat, Nat.toDigits 10 (ip 2).toNat,
      Nat.toDigits 10 (ip 3).toNat] := by
  have hno : ∀ i, '.' ∉ Nat.toDigits 10 (ip i).toNat := fun i => dot_notMem_toDigits (ip i)
  rw [inetNtoa, List.splitOn_append_cons_self_of_not_mem (hno 0),
    List.splitOn_append_cons_self_of_not_mem (hno 1),
    List.splitOn_append_cons_self_of_not_mem (hno 2), List.splitOn_eq_singleton (hno 3)]

/-- ROUND TRIP, `accept()`: picoTCP writes an IPv4 address, libc reads it. -/
theorem inetAddr_picoIpv4ToString (ip : Memory) :
    inetAddr (picoIpv4ToString ip) = [ip 0, ip 1, ip 2, ip 3] := by
  have h0 := (ip 0).toNat_lt
  have h1 := (ip 1).toNat_lt
  have h2 := (ip 2).toNat_lt
  have h3 := (ip 3).toNat_lt
  have hparts : (((picoIpv4ToString ip).splitOn '.').mapM inetPart).bind inetParts =
      some ((((ip 0).toNat * 256 + (ip 1).toNat) * 256 + (ip 2).toNat) * 256 + (ip 3).toNat) := by
    rw [picoIpv4ToString_eq, splitOn_inetNtoa]
    simp [inetPart_toDigits, inetParts, h0, h1, h2, h3]
  rw [inetAddr, hparts]
  simp only [List.cons.injEq, and_true, ← UInt8.toNat_inj, UInt8.toNat_ofNat']
  omega

/-! IPv6 -/

/-- The four digits of the word at `2 * k`. -/
def hexQuad (ip : Memory) (k : ℕ) : List Char :=
  [picoIpv6DecToChar (ip (2 * k) >>> 4), picoIpv6DecToChar (ip (2 * k) &&& 0x0F),
    picoIpv6DecToChar (ip (2 * k + 1) >>> 4), picoIpv6DecToChar (ip (2 * k + 1) &&& 0x0F)]

/-- The text of the words from the `k`-th on. -/
def hexQuads (ip : Memory) : ℕ → ℕ → List Char
  | _, 0 => []
  | k, 1 => hexQuad ip k
  | k, n + 2 => hexQuad ip k ++ ':' :: hexQuads ip (k + 1) (n + 1)

theorem picoIpv6ToString_eq (ip : Memory) : picoIpv6ToString ip = hexQuads ip 0 8 := by
  simp [picoIpv6ToString, List.range_succ, hexQuads, hexQuad]

/-- A digit is read as the nibble it was written for. -/
theorem decToChar_digit {u : UInt8} (h : u < 16) : picoIsHex (picoIpv6DecToChar u) ∧
    picoIpv6HexToDec (picoIpv6DecToChar u) = u.toNat ∧ picoIpv6DecToChar u ≠ ':' ∧
      picoIpv6DecToChar u ≠ '.' := by
  have hall : ∀ n < 16, picoIsHex (picoIpv6DecToChar (.ofNat n)) ∧
      picoIpv6HexToDec (picoIpv6DecToChar (.ofNat n)) = n ∧ picoIpv6DecToChar (.ofNat n) ≠ ':' ∧
        picoIpv6DecToChar (.ofNat n) ≠ '.' := by decide +kernel
  have hu := hall u.toNat (UInt8.lt_iff_toNat_lt.mp h)
  rwa [UInt8.ofNat_toNat] at hu

theorem nibbles (b : UInt8) : (b >>> 4 < 16 ∧ b &&& 0x0F < 16) ∧
    (b >>> 4).toNat = b.toNat / 16 ∧ (b &&& 0x0F).toNat = b.toNat % 16 := by
  have hb := b.toNat_lt
  have hhigh : (b >>> 4).toNat = b.toNat / 16 := by
    rw [UInt8.toNat_shiftRight]
    exact Nat.shiftRight_eq_div_pow b.toNat 4
  have hlow : (b &&& 0x0F).toNat = b.toNat % 16 := by
    rw [UInt8.toNat_and]
    exact Nat.and_two_pow_sub_one_eq_mod b.toNat 4
  refine ⟨⟨?_, ?_⟩, hhigh, hlow⟩
  · rw [UInt8.lt_iff_toNat_lt, hhigh]
    exact Nat.div_lt_of_lt_mul hb
  · rw [UInt8.lt_iff_toNat_lt, hlow]
    exact Nat.mod_lt _ (by decide)

/-- Four digits are read as the word. -/
theorem hexGroup_hexQuad (ip : Memory) (k : ℕ) : hexGroup (hexQuad ip k) = some (word ip k) := by
  obtain ⟨⟨h0, h1⟩, hv0, hv1⟩ := nibbles (ip (2 * k))
  obtain ⟨⟨h2, h3⟩, hv2, hv3⟩ := nibbles (ip (2 * k + 1))
  have hb := (ip (2 * k)).toNat_lt
  have hb' := (ip (2 * k + 1)).toNat_lt
  have hread : ∀ {u : UInt8}, u < 16 → ∀ n cs,
      number 16 n (picoIpv6DecToChar u :: cs) = number 16 (16 * n + u.toNat) cs := by
    intro u hu n cs
    obtain ⟨hhex, hval, -⟩ := decToChar_digit hu
    rw [number, hval, if_pos ⟨hhex, UInt8.lt_iff_toNat_lt.mp hu⟩]
  rw [hexGroup, if_pos (by simp [hexQuad]), hexQuad, hread h0, hread h1, hread h2, hread h3, number,
    hv0, hv1, hv2, hv3, word, Option.some.injEq]
  omega

theorem hexQuad_plain (ip : Memory) (k : ℕ) : ∀ c ∈ hexQuad ip k, c ≠ ':' ∧ c ≠ '.' := by
  obtain ⟨⟨h0, h1⟩, -⟩ := nibbles (ip (2 * k))
  obtain ⟨⟨h2, h3⟩, -⟩ := nibbles (ip (2 * k + 1))
  intro c hc
  simp only [hexQuad, List.mem_cons, List.not_mem_nil, or_false] at hc
  rcases hc with rfl | rfl | rfl | rfl
  · exact (decToChar_digit h0).2.2
  · exact (decToChar_digit h1).2.2
  · exact (decToChar_digit h2).2.2
  · exact (decToChar_digit h3).2.2

/-- Nothing is abbreviated: a ':' is followed by a digit. -/
theorem splitDouble_plain {l : List Char} (hl : ∀ c ∈ l, c ≠ ':') (r : List Char) :
    splitDouble (l ++ r) = (splitDouble r).map fun (a, b) => (l ++ a, b) := by
  induction l with
  | nil => simp
  | cons c l ih =>
    have hc := hl c (List.mem_cons_self ..)
    rw [List.cons_append, splitDouble.eq_def]
    split
    · next heq => exact absurd (List.cons.inj heq).1 hc
    · next heq =>
      obtain ⟨rfl, rfl⟩ := List.cons.inj heq
      rw [ih fun c hc => hl c (List.mem_cons_of_mem _ hc), Option.map_map]
      rfl
    · next heq => cases heq

theorem splitDouble_hexQuads (ip : Memory) (k n : ℕ) : splitDouble (hexQuads ip k n) = none := by
  induction n generalizing k with
  | zero => rfl
  | succ n ih =>
    have hplain := hexQuad_plain ip k
    cases n with
    | zero =>
      rw [hexQuads, ← List.append_nil (hexQuad ip k), splitDouble_plain fun c hc => (hplain c hc).1]
      rfl
    | succ n =>
      -- the next word starts with a digit
      have hnext : ∃ d ds, hexQuads ip (k + 1) (n + 1) = d :: ds ∧ d ≠ ':' := by
        cases n with
        | zero => exact ⟨_, _, rfl, (hexQuad_plain ip (k + 1) _ (List.mem_cons_self ..)).1⟩
        | succ n => exact ⟨_, _, rfl, (hexQuad_plain ip (k + 1) _ (List.mem_cons_self ..)).1⟩
      obtain ⟨d, ds, hds, hd⟩ := hnext
      have hrest := ih (k + 1)
      rw [hexQuads, splitDouble_plain fun c hc => (hplain c hc).1, hds]
      rw [hds] at hrest
      rw [splitDouble.eq_def]
      split
      · next heq => exact absurd (List.cons.inj (List.cons.inj heq).2).1 hd
      · next heq =>
        obtain ⟨rfl, rfl⟩ := List.cons.inj heq
        rw [hrest]
        rfl
      · next heq => cases heq

/-- The groups between the colons are the words. -/
theorem pton6Words_hexQuads (ip : Memory) (k n : ℕ) :
    pton6Words ((hexQuads ip k (n + 1)).splitOn ':') =
      some ((List.range' k (n + 1)).map (word ip)) := by
  induction n generalizing k with
  | zero =>
    have hplain := hexQuad_plain ip k
    rw [hexQuads, List.splitOn_eq_singleton fun h => (hplain _ h).1 rfl, pton6Words,
      if_neg fun h => (hplain _ h).2 rfl, hexGroup_hexQuad]
    rfl
  | succ n ih =>
    have hplain := hexQuad_plain ip k
    have hnext := ih (k + 1)
    rw [hexQuads, List.splitOn_append_cons_self_of_not_mem fun h => (hplain _ h).1 rfl]
    obtain ⟨q, ps, hps⟩ := List.exists_cons_of_ne_nil
      (List.splitOn_ne_nil ':' (hexQuads ip (k + 1) (n + 1)))
    rw [hps] at hnext
    rw [hps, pton6Words, hexGroup_hexQuad, hnext]
    rfl

theorem wordBytes_word (ip : Memory) (k : ℕ) : wordBytes (word ip k) = [ip (2 * k), ip (2 * k + 1)] := by
  have h0 := (ip (2 * k)).toNat_lt
  have h1 := (ip (2 * k + 1)).toNat_lt
  simp only [wordBytes, word, List.cons.injEq, and_true, ← UInt8.toNat_inj, UInt8.toNat_ofNat']
  omega

/-- ROUND TRIP, `accept()`: picoTCP writes an IPv6 address, libc reads it. -/
theorem inetPton_picoIpv6ToString (ip : Memory) :
    inetPton (picoIpv6ToString ip) = some ((List.range 16).map ip) := by
  rw [picoIpv6ToString_eq, inetPton, splitDouble_hexQuads]
  simp only
  rw [pton6Words_hexQuads ip 0 7]
  simp [List.range', wordBytes_word, List.range_succ]

end FdPicotcp.AddressText
