import FdPicotcp.Address.Family

/-! Do IPv6 addresses reach the stack unchanged?

    `bind()` and `connect()` have libc print the address into a buffer, and picoTCP reads the text
    back. `inet_ntop` is told that the buffer has `addrlen` bytes, which is the 28 of a
    `sockaddr_in6`; a longer text is not written and nobody notices. The text of an IPv4-mapped or
    IPv4-compatible address ends in a dotted quad, which neither reader takes.

    The reader itself is right about every text of libc without a quad: groups with up to three zeros
    left out, and one double colon anywhere. -/

namespace FdPicotcp.RoundTrip
open AddressText

/-! Groups -/

/-- The two bytes of each word. -/
def bytes (ws : List ℕ) : List UInt8 := ws.flatMap fun w => [UInt8.ofNat (w / 256), UInt8.ofNat w]

/-- Words joined by colons. -/
def hexGroups : List ℕ → List Char
  | [] => []
  | w :: ws => Nat.toDigits 16 w ++ ws.flatMap fun w => ':' :: Nat.toDigits 16 w

/-- The reader after the words `ws`, at the beginning of a group. -/
def aligned (ws : List ℕ) (hex colons doublecolon : ℕ) : Ipv6Parse :=
  ⟨bytes ws ++ List.replicate (16 - 2 * ws.length) 0, 2 * ws.length, 4 * hex, hex, colons, doublecolon⟩

variable {ws left right : List ℕ} {w h c d : ℕ} {p : Char} {rest : List Char} {pre post : List UInt8}

theorem length_bytes : (bytes ws).length = 2 * ws.length := by
  induction ws with
  | nil => rfl
  | cons w ws ih =>
    rw [bytes, List.flatMap_cons, List.length_append, ← bytes, ih, List.length_cons]
    simp only [List.length_cons, List.length_nil]
    omega

theorem bytes_append : bytes (left ++ right) = bytes left ++ bytes right := List.flatMap_append

theorem bytes_replicate (n : ℕ) : bytes (List.replicate n 0) = List.replicate (2 * n) 0 := by
  induction n with
  | zero => rfl
  | succ n ih =>
    rw [List.replicate_succ, bytes, List.flatMap_cons, ← bytes, ih]
    rfl

theorem hexGroups_cons_cons (w v : ℕ) (ws : List ℕ) :
    hexGroups (w :: v :: ws) = Nat.toDigits 16 w ++ ':' :: hexGroups (v :: ws) := rfl

/-! Digits -/

theorem picoIpv6HexToDec_digitChar : ∀ a < 16, picoIpv6HexToDec a.digitChar = a := by
  decide

theorem shift_add (n a : ℕ) : UInt8.ofNat n <<< 4 + UInt8.ofNat a = UInt8.ofNat (16 * n + a) := by
  have hfour : 2 ^ ((4 : UInt8).toNat % 8) = 16 := by decide
  apply UInt8.toNat_inj.mp
  simp only [UInt8.toNat_add, UInt8.toNat_shiftLeft, UInt8.toNat_ofNat', Nat.shiftLeft_eq, hfour]
  omega

/-- The reader puts the low half of a byte of three digits in place. -/
theorem or_shift {n a : ℕ} (ha : a < 16) :
    UInt8.ofNat a ||| UInt8.ofNat n <<< 4 = UInt8.ofNat (16 * n + a) := by
  have hfour : (4 : UInt8).toNat % 8 = 4 := by decide
  have hkept : (n % 2 ^ 8) <<< 4 % 2 ^ 8 = (n % 16) <<< 4 := by
    simp only [Nat.shiftLeft_eq]
    omega
  have hor : (n % 16) <<< 4 ||| a = (n % 16) <<< 4 + a :=
    (Nat.shiftLeft_add_eq_or_of_lt (show a < 2 ^ 4 by omega) _).symm
  apply UInt8.toNat_inj.mp
  simp only [UInt8.toNat_or, UInt8.toNat_shiftLeft, UInt8.toNat_ofNat', hfour, hkept]
  rw [Nat.mod_eq_of_lt (show a < 2 ^ 8 by omega), Nat.or_comm, hor, Nat.shiftLeft_eq]
  omega

theorem shift_right {n : ℕ} (hn : n < 256) : UInt8.ofNat n >>> 4 = UInt8.ofNat (n / 16) := by
  have hfour : (4 : UInt8).toNat % 8 = 4 := by decide
  apply UInt8.toNat_inj.mp
  simp only [UInt8.toNat_shiftRight, UInt8.toNat_ofNat', Nat.shiftRight_eq_div_pow, hfour]
  omega

theorem modify_append (x : UInt8) (f : UInt8 → UInt8) :
    (pre ++ x :: post).modify pre.length f = pre ++ f x :: post := by
  induction pre with
  | nil => rfl
  | cons y ys ih => exact congrArg (y :: ·) ih

theorem set_append (x y : UInt8) : (pre ++ x :: post).set pre.length y = pre ++ y :: post := by
  induction pre with
  | nil => rfl
  | cons z zs ih => exact congrArg (z :: ·) ih

theorem getD_append (x : UInt8) : (pre ++ x :: post).getD pre.length 0 = x := by
  induction pre with
  | nil => rfl
  | cons y ys ih => exact ih

theorem modify_second (x y : UInt8) (f : UInt8 → UInt8) :
    (pre ++ x :: y :: post).modify (pre.length + 1) f = pre ++ x :: f y :: post := by
  induction pre with
  | nil => rfl
  | cons z zs ih => exact congrArg (z :: ·) ih

theorem set_second (x y z : UInt8) :
    (pre ++ x :: y :: post).set (pre.length + 1) z = pre ++ x :: z :: post := by
  induction pre with
  | nil => rfl
  | cons t ts ih => exact congrArg (t :: ·) ih

/-- A digit goes into the byte that the reader is at. -/
theorem hexDigit_digitChar {n m a : ℕ} (hroom : pre.length < 16) (ha : a < 16) :
    hexDigit ⟨pre ++ UInt8.ofNat n :: post, pre.length, m, h, c, d⟩ a.digitChar =
      .ok ⟨pre ++ UInt8.ofNat (16 * n + a) :: post,
        if (m + 1) % 2 = 0 then pre.length + 1 else pre.length, m + 1, h, c, d⟩ := by
  rw [hexDigit, if_pos hroom]
  simp only [modify_append, picoIpv6HexToDec_digitChar a ha, shift_add]

/-- A word has one to four digits. -/
theorem toDigits_cases (hw : w < 65536) :
    (∃ a, a < 16 ∧ w = a ∧ Nat.toDigits 16 w = [a.digitChar]) ∨
      (∃ a b, a < 16 ∧ b < 16 ∧ w = 16 * a + b ∧ Nat.toDigits 16 w = [a.digitChar, b.digitChar]) ∨
      (∃ a b e, a < 16 ∧ b < 16 ∧ e < 16 ∧ w = 16 * (16 * a + b) + e ∧
        Nat.toDigits 16 w = [a.digitChar, b.digitChar, e.digitChar]) ∨
      ∃ a b e f, a < 16 ∧ b < 16 ∧ e < 16 ∧ f < 16 ∧ w = 16 * (16 * (16 * a + b) + e) + f ∧
        Nat.toDigits 16 w = [a.digitChar, b.digitChar, e.digitChar, f.digitChar] := by
  have hstep : ∀ n, 16 ≤ n → Nat.toDigits 16 n = Nat.toDigits 16 (n / 16) ++ [(n % 16).digitChar] := by
    intro n hn
    rw [Nat.toDigits_eq_if (by decide), if_neg (by omega)]
  by_cases h1 : w < 16
  · exact .inl ⟨w, h1, rfl, Nat.toDigits_of_lt_base h1⟩
  rw [hstep w (by omega)]
  by_cases h2 : w / 16 < 16
  · rw [Nat.toDigits_of_lt_base h2]
    exact .inr (.inl ⟨w / 16, w % 16, h2, by omega, by omega, rfl⟩)
  rw [hstep (w / 16) (by omega)]
  by_cases h3 : w / 16 / 16 < 16
  · rw [Nat.toDigits_of_lt_base h3]
    exact .inr (.inr (.inl ⟨w / 16 / 16, w / 16 % 16, w % 16, h3, by omega, by omega, by omega, rfl⟩))
  · rw [hstep (w / 16 / 16) (by omega), Nat.toDigits_of_lt_base (show w / 16 / 16 / 16 < 16 by omega)]
    exact .inr (.inr (.inr ⟨w / 16 / 16 / 16, w / 16 / 16 % 16, w / 16 % 16, w % 16, by omega, by omega,
      by omega, by omega, by omega, rfl⟩))

/-- The same for the second byte of a group. -/
theorem hexDigit_second {x : UInt8} {n m a : ℕ} (hroom : pre.length + 1 < 16) (ha : a < 16) :
    hexDigit ⟨pre ++ x :: UInt8.ofNat n :: post, pre.length + 1, m, h, c, d⟩ a.digitChar =
      .ok ⟨pre ++ x :: UInt8.ofNat (16 * n + a) :: post,
        if (m + 1) % 2 = 0 then pre.length + 2 else pre.length + 1, m + 1, h, c, d⟩ := by
  rw [hexDigit, if_pos hroom]
  simp only [modify_second, picoIpv6HexToDec_digitChar a ha, shift_add]

/-! The end of a group: the zeros that were left out -/

theorem endGroup_none {x y : UInt8} :
    endGroup ⟨pre ++ x :: y :: post, pre.length + 2, 4 * h + 4, h, c, d⟩ p =
      .ok ⟨pre ++ x :: y :: post, pre.length + 2, 4 * (h + 1), h + 1,
        if p = ':' then c + 1 else c, d⟩ := by
  have hdiff : ((h + 1 : ℕ) : ℤ) * 4 - (4 * h + 4 : ℕ) = 0 := by omega
  simp only [endGroup, hdiff, if_true]
  rw [Nat.mul_comm 4]

theorem endGroup_one {n e : ℕ} (hroom : pre.length + 2 ≤ 16) (hn : n < 256) (he : e < 16) :
    endGroup ⟨pre ++ UInt8.ofNat n :: UInt8.ofNat e :: post, pre.length + 1, 4 * h + 3, h, c, d⟩ p =
      .ok ⟨pre ++ UInt8.ofNat (n / 16) :: UInt8.ofNat (16 * n + e) :: post, pre.length + 2,
        4 * (h + 1), h + 1, if p = ':' then c + 1 else c, d⟩ := by
  have hdiff : ((h + 1 : ℕ) : ℤ) * 4 - (4 * h + 3 : ℕ) = 1 := by omega
  have hmodify : (pre ++ UInt8.ofNat n :: UInt8.ofNat e :: post).modify (pre.length + 1)
      (· ||| UInt8.ofNat n <<< 4) = pre ++ UInt8.ofNat n :: UInt8.ofNat (16 * n + e) :: post := by
    rw [← or_shift he]
    exact modify_second _ _ _
  simp only [endGroup, hdiff, OfNat.one_ne_ofNat, one_ne_zero, if_false, if_true,
    Nat.add_sub_cancel, getD_append, hmodify, set_append, shift_right hn,
    if_pos (show pre.length + 1 < 16 by omega)]
  rw [Nat.mul_comm 4]

theorem endGroup_two {x : UInt8} (hroom : pre.length + 2 ≤ 16) :
    endGroup ⟨pre ++ x :: 0 :: post, pre.length + 1, 4 * h + 2, h, c, d⟩ p =
      .ok ⟨pre ++ 0 :: x :: post, pre.length + 2, 4 * (h + 1), h + 1,
        if p = ':' then c + 1 else c, d⟩ := by
  have hdiff : ((h + 1 : ℕ) : ℤ) * 4 - (4 * h + 2 : ℕ) = 2 := by omega
  simp only [endGroup, hdiff, OfNat.ofNat_ne_zero, OfNat.ofNat_ne_one, if_false, if_true,
    Nat.add_sub_cancel, getD_append, set_second, set_append,
    if_pos (show pre.length + 1 < 16 by omega)]
  rw [Nat.mul_comm 4]

theorem endGroup_three {x : UInt8} (hroom : pre.length + 2 ≤ 16) :
    endGroup ⟨pre ++ x :: 0 :: post, pre.length, 4 * h + 1, h, c, d⟩ p =
      .ok ⟨pre ++ 0 :: x :: post, pre.length + 2, 4 * (h + 1), h + 1,
        if p = ':' then c + 1 else c, d⟩ := by
  have hdiff : ((h + 1 : ℕ) : ℤ) * 4 - (4 * h + 1 : ℕ) = 3 := by omega
  have hne : (3 : ℤ) ≠ 2 := by decide
  simp only [endGroup, hdiff, OfNat.ofNat_ne_zero, OfNat.ofNat_ne_one, hne, if_false, if_true,
    getD_append, set_second, set_append, if_pos (show pre.length + 1 < 16 by omega)]
  rw [Nat.mul_comm 4]

/-- GROUP: from the beginning of a group, the digits of a word and the end of the group put its two
    bytes in place, however many leading zeros have been left out. -/
theorem group_word (hw : w < 65536) (hroom : pre.length + 2 ≤ 16) :
    ((Nat.toDigits 16 w).foldlM hexDigit ⟨pre ++ 0 :: 0 :: post, pre.length, 4 * h, h, c, d⟩ >>=
      fun st => endGroup st p) =
      .ok ⟨pre ++ UInt8.ofNat (w / 256) :: UInt8.ofNat w :: post, pre.length + 2, 4 * (h + 1), h + 1,
        if p = ':' then c + 1 else c, d⟩ := by
  have hone : ∀ a < 16, hexDigit ⟨pre ++ 0 :: 0 :: post, pre.length, 4 * h, h, c, d⟩ a.digitChar =
      .ok ⟨pre ++ UInt8.ofNat a :: 0 :: post, pre.length, 4 * h + 1, h, c, d⟩ := by
    intro a ha
    have hdigit : hexDigit ⟨pre ++ UInt8.ofNat 0 :: 0 :: post, pre.length, 4 * h, h, c, d⟩ a.digitChar = _ :=
      hexDigit_digitChar (by omega) ha
    rwa [Nat.mul_zero, Nat.zero_add, if_neg (by omega)] at hdigit
  have htwo : ∀ a b, b < 16 →
      hexDigit ⟨pre ++ UInt8.ofNat a :: 0 :: post, pre.length, 4 * h + 1, h, c, d⟩ b.digitChar =
        .ok ⟨pre ++ UInt8.ofNat (16 * a + b) :: 0 :: post, pre.length + 1, 4 * h + 2, h, c, d⟩ := by
    intro a b hb
    rw [hexDigit_digitChar (by omega) hb, if_pos (by omega)]
  have hthree : ∀ x e, e < 16 →
      hexDigit ⟨pre ++ x :: 0 :: post, pre.length + 1, 4 * h + 2, h, c, d⟩ e.digitChar =
        .ok ⟨pre ++ x :: UInt8.ofNat e :: post, pre.length + 1, 4 * h + 3, h, c, d⟩ := by
    intro x e he
    have hdigit : hexDigit ⟨pre ++ x :: UInt8.ofNat 0 :: post, pre.length + 1, 4 * h + 2, h, c, d⟩
        e.digitChar = _ := hexDigit_second (by omega) he
    rwa [Nat.mul_zero, Nat.zero_add, if_neg (by omega)] at hdigit
  have hfour : ∀ x e f, f < 16 →
      hexDigit ⟨pre ++ x :: UInt8.ofNat e :: post, pre.length + 1, 4 * h + 3, h, c, d⟩ f.digitChar =
        .ok ⟨pre ++ x :: UInt8.ofNat (16 * e + f) :: post, pre.length + 2, 4 * h + 4, h, c, d⟩ := by
    intro x e f hf
    rw [hexDigit_second (by omega) hf, if_pos (by omega)]
  rcases toDigits_cases hw with ⟨a, ha, rfl, hds⟩ | ⟨a, b, ha, hb, rfl, hds⟩ |
    ⟨a, b, e, ha, hb, he, rfl, hds⟩ | ⟨a, b, e, f, ha, hb, he, hf, rfl, hds⟩
  · rw [hds]
    have hhigh : w / 256 = 0 := by omega
    simp only [List.foldlM_cons, List.foldlM_nil, hone w ha, bind, Except.bind, pure, Except.pure]
    rw [endGroup_three hroom, hhigh]
    rfl
  · rw [hds]
    have hhigh : (16 * a + b) / 256 = 0 := by omega
    simp only [List.foldlM_cons, List.foldlM_nil, hone a ha, htwo a b hb, bind, Except.bind, pure,
      Except.pure]
    rw [endGroup_two hroom, hhigh]
    rfl
  · rw [hds]
    have hhigh : (16 * (16 * a + b) + e) / 256 = (16 * a + b) / 16 := by omega
    simp only [List.foldlM_cons, List.foldlM_nil, hone a ha, htwo a b hb, hthree _ e he, bind,
      Except.bind, pure, Except.pure]
    rw [endGroup_one hroom (by omega) he, hhigh]
  · rw [hds]
    have hhigh : (16 * (16 * (16 * a + b) + e) + f) / 256 = 16 * a + b := by omega
    have hlow : UInt8.ofNat (16 * (16 * (16 * a + b) + e) + f) = UInt8.ofNat (16 * e + f) := by
      apply UInt8.toNat_inj.mp
      simp only [UInt8.toNat_ofNat']
      omega
    simp only [List.foldlM_cons, List.foldlM_nil, hone a ha, htwo a b hb, hthree _ e he,
      hfour _ e f hf, bind, Except.bind, pure, Except.pure]
    rw [endGroup_none, hhigh, hlow]

/-! Words -/

/-- A colon ends a group, also an empty one. -/
theorem ipv6Loop_colon (st : Ipv6Parse) : ipv6Loop st (':' :: rest) =
    endGroup st ':' >>= fun st => ipv6Loop st rest := by
  rw [ipv6Loop, if_pos (.inr (.inl rfl)), if_neg (by decide)]
  simp only [bind, Except.bind, true_or, if_true]

/-- The last character counts as a colon only if it is one. -/
theorem endGroup_of_ne (hp : p ≠ ':') (st : Ipv6Parse) : endGroup st p = endGroup st '0' := by
  have hzero : ('0' : Char) ≠ ':' := by decide
  simp only [endGroup, if_neg hp, if_neg hzero]

/-- A group's digits are read one by one, and a colon or the end of the text ends it. -/
theorem ipv6Loop_group {ds : List Char} (hds : ∀ x ∈ ds, picoIsHex x) (hne : ds ≠ [])
    (hrest : rest = [] ∨ ∃ more, rest = ':' :: more) (st : Ipv6Parse) :
    ipv6Loop st (ds ++ rest) = (ds.foldlM hexDigit st >>= fun st => endGroup st (rest.headD '0')) >>=
      fun st => ipv6Loop st rest.tail := by
  induction ds generalizing st with
  | nil => exact absurd rfl hne
  | cons x ds ih =>
    have hx : picoIsHex x := hds x (List.mem_cons_self ..)
    have hcolon : x ≠ ':' := by
      rintro rfl
      exact absurd hx (by decide)
    rw [List.cons_append, ipv6Loop, if_pos (.inl hx), if_pos hx, List.foldlM_cons, bind_assoc,
      bind_assoc]
    refine congrArg _ (funext fun st => ?_)
    dsimp only
    cases ds with
    | nil =>
      rcases hrest with rfl | ⟨more, rfl⟩
      · rw [if_pos (.inr rfl), endGroup_of_ne hcolon]
        rfl
      · rw [if_neg (by simp [hcolon])]
        exact ipv6Loop_colon st
    | cons y ds =>
      rw [if_neg (by simp [hcolon])]
      exact (ih (fun z hz => hds z (List.mem_cons_of_mem _ hz)) (List.cons_ne_nil y ds) st).trans
        (bind_assoc ..)

/-- The reader gets a word further. -/
theorem aligned_word (hw : w < 65536) (hroom : ws.length < 8) :
    ((Nat.toDigits 16 w).foldlM hexDigit (aligned ws h c d) >>= fun st => endGroup st p) =
      .ok (aligned (ws ++ [w]) (h + 1) (if p = ':' then c + 1 else c) d) := by
  have hzeros : List.replicate (16 - 2 * ws.length) (0 : UInt8) =
      0 :: 0 :: List.replicate (16 - 2 * (ws.length + 1)) 0 := by
    rw [show 16 - 2 * ws.length = 16 - 2 * (ws.length + 1) + 1 + 1 by omega, List.replicate_succ,
      List.replicate_succ]
  have hroom' : (bytes ws).length + 2 ≤ 16 := by
    rw [length_bytes]
    omega
  rw [aligned, hzeros, ← length_bytes, group_word hw hroom', aligned, bytes_append,
    List.length_append, List.append_assoc, length_bytes]
  rfl

theorem ipv6Loop_word (hw : w < 65536) (hroom : ws.length < 8) :
    ipv6Loop (aligned ws h c d) (Nat.toDigits 16 w ++ ':' :: rest) =
      ipv6Loop (aligned (ws ++ [w]) (h + 1) (c + 1) d) rest := by
  rw [ipv6Loop_group (hex_of_word w) Nat.toDigits_ne_nil (.inr ⟨rest, rfl⟩), aligned_word hw hroom]
  rfl

theorem ipv6Loop_last (hw : w < 65536) (hroom : ws.length < 8) :
    ipv6Loop (aligned ws h c d) (Nat.toDigits 16 w) = .ok (aligned (ws ++ [w]) (h + 1) c d) := by
  have hlast := ipv6Loop_group (hex_of_word w) Nat.toDigits_ne_nil (.inl rfl) (aligned ws h c d)
  rw [List.append_nil, aligned_word hw hroom] at hlast
  exact hlast

/-- WORDS in front of a colon. -/
theorem ipv6Loop_words {gs : List ℕ} (hne : gs ≠ []) (hgs : ∀ w ∈ gs, w < 65536)
    (hroom : ws.length + gs.length ≤ 8) :
    ipv6Loop (aligned ws h c d) (hexGroups gs ++ ':' :: rest) =
      ipv6Loop (aligned (ws ++ gs) (h + gs.length) (c + gs.length) d) rest := by
  induction gs generalizing ws h c with
  | nil => exact absurd rfl hne
  | cons g gs ih =>
    have hg : g < 65536 := hgs g (List.mem_cons_self ..)
    rw [List.length_cons] at hroom
    cases gs with
    | nil =>
      rw [hexGroups, List.flatMap_nil, List.append_nil, ipv6Loop_word hg (by omega)]
      rfl
    | cons g' gs =>
      rw [hexGroups_cons_cons, List.append_assoc, List.cons_append, ipv6Loop_word hg (by omega),
        ih (List.cons_ne_nil g' gs) (fun w hw => hgs w (List.mem_cons_of_mem _ hw))
          (by rw [List.length_append, List.length_singleton]; omega)]
      simp [Nat.add_assoc, Nat.add_comm 1]

/-- WORDS at the end of the text. -/
theorem ipv6Loop_words_end {gs : List ℕ} (hne : gs ≠ []) (hgs : ∀ w ∈ gs, w < 65536)
    (hroom : ws.length + gs.length ≤ 8) :
    ipv6Loop (aligned ws h c d) (hexGroups gs) =
      .ok (aligned (ws ++ gs) (h + gs.length) (c + gs.length - 1) d) := by
  induction gs generalizing ws h c with
  | nil => exact absurd rfl hne
  | cons g gs ih =>
    have hg : g < 65536 := hgs g (List.mem_cons_self ..)
    rw [List.length_cons] at hroom
    cases gs with
    | nil =>
      rw [hexGroups, List.flatMap_nil, List.append_nil, ipv6Loop_last hg (by omega)]
      rfl
    | cons g' gs =>
      rw [hexGroups_cons_cons, ipv6Loop_word hg (by omega),
        ih (List.cons_ne_nil g' gs) (fun w hw => hgs w (List.mem_cons_of_mem _ hw))
          (by rw [List.length_append, List.length_singleton]; omega)]
      simp [Nat.add_assoc, Nat.add_comm 1]

/-- An empty group is the double colon, or half of one at the beginning of the text. -/
theorem ipv6Loop_empty (hd : d = 0 ∨ c = 1) : ipv6Loop (aligned ws h c d) (':' :: rest) =
    ipv6Loop (aligned ws (h + 1) (c + 1) (2 * ws.length)) rest := by
  have hdiff : ((h + 1 : ℕ) : ℤ) * 4 - (4 * h : ℕ) = 4 := by omega
  have hend : endGroup (aligned ws h c d) ':' =
      .ok (aligned ws (h + 1) (c + 1) (2 * ws.length)) := by
    have hallowed : ¬ (d ≠ 0 ∧ c + 1 ≠ 2) := by omega
    have hone : (4 : ℤ) ≠ 1 := by decide
    have htwo : (4 : ℤ) ≠ 2 := by decide
    have hthree : (4 : ℤ) ≠ 3 := by decide
    simp only [endGroup, aligned, hdiff, OfNat.ofNat_ne_zero, hone, htwo, hthree, if_false, if_true,
      if_neg hallowed]
    rw [Nat.mul_comm 4]
  rw [ipv6Loop_colon, hend]
  rfl

/-- In the end the reader moves what follows the double colon. -/
theorem picoStringToIpv6_of_loop {text : List Char} (hroom : (left ++ right).length ≤ 8) (hc : 2 ≤ c)
    (hloop : ipv6Loop (aligned [] 0 0 0) text =
      .ok (aligned (left ++ right) h c (2 * left.length))) : picoStringToIpv6 text =
      .ok (bytes (left ++ List.replicate (8 - (left ++ right).length) 0 ++ right)) := by
  have hzeros : 16 - 2 * (left ++ right).length = 2 * (8 - (left ++ right).length) := by omega
  have hlength : (bytes (left ++ right)).length = 2 * (left ++ right).length := length_bytes
  have hread : (bytes (left ++ right) ++ List.replicate (16 - 2 * (left ++ right).length) 0).take
      (2 * (left ++ right).length) = bytes (left ++ right) := List.take_left' hlength
  have hleft : (bytes (left ++ right) ++ List.replicate (16 - 2 * (left ++ right).length) 0).take
      (2 * left.length) = bytes left := by
    rw [bytes_append, List.append_assoc]
    exact List.take_left' length_bytes
  have hright : (bytes (left ++ right)).drop (2 * left.length) = bytes right := by
    rw [bytes_append]
    exact List.drop_left' length_bytes
  have hstart : (⟨List.replicate 16 0, 0, 0, 0, 0, 0⟩ : Ipv6Parse) = aligned [] 0 0 0 := rfl
  rw [picoStringToIpv6, hstart, hloop]
  change (if c < 2 then _ else _) = _
  rw [if_neg (by omega)]
  simp only [aligned, hread, hleft, hright]
  rw [hzeros, bytes_append, bytes_append, bytes_replicate]

/-- Eight words. -/
theorem picoStringToIpv6_full (hws : ∀ w ∈ ws, w < 65536) (hlength : ws.length = 8) :
    picoStringToIpv6 (hexGroups ws) = .ok (bytes ws) := by
  have hne : ws ≠ [] := by
    rintro rfl
    cases hlength
  have hloop : ipv6Loop (aligned [] 0 0 0) (hexGroups ws) =
      .ok (aligned ([] ++ ws) (0 + ws.length) (0 + ws.length - 1) (2 * ([] : List ℕ).length)) :=
    ipv6Loop_words_end hne hws (by rw [List.length_nil]; omega)
  have hroom : ([] ++ ws).length ≤ 8 := hlength.le
  have hread := picoStringToIpv6_of_loop hroom (by omega) hloop
  simpa [hlength] using hread

/-- A double colon between two parts, each of which may be empty. -/
theorem picoStringToIpv6_compressed (hleft : ∀ w ∈ left, w < 65536) (hright : ∀ w ∈ right, w < 65536)
    (hroom : (left ++ right).length ≤ 8) :
    picoStringToIpv6 (hexGroups left ++ ':' :: ':' :: hexGroups right) =
      .ok (bytes (left ++ List.replicate (8 - (left ++ right).length) 0 ++ right)) := by
  have hlength : left.length + right.length ≤ 8 := by rwa [← List.length_append]
  -- up to the double colon, with the number of colons read
  have hdouble : ∃ h c, 2 ≤ c ∧ ∀ rest, ipv6Loop (aligned [] 0 0 0) (hexGroups left ++ ':' :: ':' :: rest) =
      ipv6Loop (aligned left h c (2 * left.length)) rest := by
    cases left with
    | nil =>
      refine ⟨2, 2, le_refl 2, fun rest => ?_⟩
      have hfirst : ipv6Loop (aligned [] 0 0 0) (':' :: ':' :: rest) =
          ipv6Loop (aligned [] 1 1 0) (':' :: rest) := ipv6Loop_empty (.inl rfl)
      exact hfirst.trans (ipv6Loop_empty (.inl rfl))
    | cons g gs =>
      refine ⟨(g :: gs).length + 1, (g :: gs).length + 1, by simp, fun rest => ?_⟩
      rw [ipv6Loop_words (List.cons_ne_nil g gs) hleft (by rw [List.length_nil]; omega),
        ipv6Loop_empty (.inl rfl)]
      simp
  obtain ⟨h, c, hc, hdouble⟩ := hdouble
  have hloop : ∃ h c, 2 ≤ c ∧ ipv6Loop (aligned [] 0 0 0) (hexGroups left ++ ':' :: ':' :: hexGroups right) =
      .ok (aligned (left ++ right) h c (2 * left.length)) := by
    rw [hdouble]
    cases right with
    | nil => exact ⟨h, c, hc, by rw [List.append_nil]; rfl⟩
    | cons g gs =>
      refine ⟨_, _, ?_, ipv6Loop_words_end (List.cons_ne_nil g gs) hright hlength⟩
      rw [List.length_cons]
      omega
  obtain ⟨h, c, hc, hloop⟩ := hloop
  exact picoStringToIpv6_of_loop hroom hc hloop

/-! What libc prints -/

/-- The zero words from the `i`-th on. -/
def runAt (ws : List ℕ) (i : ℕ) : ℕ × ℕ := (i, ((ws.drop i).takeWhile (· = 0)).length)

/-- A turn of libc's loop. -/
def longer (ws : List ℕ) (best : ℕ × ℕ) (i : ℕ) : ℕ × ℕ :=
  if best.2 < (runAt ws i).2 then runAt ws i else best

theorem foldl_longer {is : List ℕ} {best : ℕ × ℕ} (h : best.2 < 2 ∨ ∃ i, best = runAt ws i) :
    (is.foldl (longer ws) best).2 < 2 ∨ ∃ i, is.foldl (longer ws) best = runAt ws i := by
  induction is generalizing best with
  | nil => exact h
  | cons i is ih =>
    refine ih ?_
    rw [longer]
    split
    · exact .inr ⟨i, rfl⟩
    · exact h

/-- There is no run of two, or the run is some place with all zero words from there on. -/
theorem zeroRun_cases (ws : List ℕ) :
    zeroRun ws = (0, 0) ∨ ∃ i, zeroRun ws = runAt ws i ∧ 2 ≤ (runAt ws i).2 := by
  have hrun : zeroRun ws = if ((List.range ws.length).foldl (longer ws) (0, 0)).2 < 2 then (0, 0)
      else (List.range ws.length).foldl (longer ws) (0, 0) := rfl
  rw [hrun]
  split
  · exact .inl rfl
  · rename_i hlong
    obtain ⟨i, hi⟩ := (foldl_longer (.inl (by decide))).resolve_left hlong
    rw [hi] at hlong ⊢
    exact .inr ⟨i, rfl, not_lt.mp hlong⟩

theorem dropWhile_runAt (ws : List ℕ) (i : ℕ) :
    (ws.drop i).dropWhile (· = 0) = ws.drop (i + (runAt ws i).2) := by
  have hparts : (ws.drop i).takeWhile (· = 0) ++ (ws.drop i).dropWhile (· = 0) = ws.drop i :=
    List.takeWhile_append_dropWhile
  have hafter : ((ws.drop i).takeWhile (· = 0) ++ (ws.drop i).dropWhile (· = 0)).drop
      (runAt ws i).2 = (ws.drop i).dropWhile (· = 0) := List.drop_left' rfl
  rw [hparts, List.drop_drop] at hafter
  exact hafter.symm

/-- The words of a run are zero. -/
theorem split_runAt (ws : List ℕ) (i : ℕ) : ws = ws.take i ++ List.replicate (runAt ws i).2 0 ++
    ws.drop (i + (runAt ws i).2) := by
  have hzeros : (ws.drop i).takeWhile (· = 0) = List.replicate (runAt ws i).2 0 := by
    refine List.eq_replicate_of_mem fun w hw => ?_
    exact of_decide_eq_true (List.all_eq_true.mp List.all_takeWhile w hw)
  rw [List.append_assoc, ← hzeros, ← dropWhile_runAt, List.takeWhile_append_dropWhile,
    List.take_append_drop]

/-- The word after a run is not. -/
theorem next_runAt (ws : List ℕ) (i : ℕ) : ws[i + (runAt ws i).2]? ≠ some 0 := by
  have hnext := List.head?_dropWhile_not (fun w => decide (w = 0)) (ws.drop i)
  rw [dropWhile_runAt, List.head?_drop] at hnext
  intro hzero
  rw [hzero] at hnext
  exact absurd hnext (by decide)

variable {best : ℕ × ℕ} {gs vs : List ℕ} {i : ℕ}

theorem ntopWords_cons (hout : ¬ (best.1 ≤ i ∧ i < best.1 + best.2)) :
    ntopWords best none i (w :: vs) =
      (if i = 0 then [] else [':']) ++ (Nat.toDigits 16 w ++ ntopWords best none (i + 1) vs) := by
  rw [ntopWords, if_neg hout, ite_self, Option.getD_none]

/-- Words outside the run, each after a colon. -/
theorem ntopWords_outside (hi : i ≠ 0)
    (hout : best.2 = 0 ∨ i + gs.length ≤ best.1 ∨ best.1 + best.2 ≤ i) :
    ntopWords best none i (gs ++ vs) =
      gs.flatMap (fun w => ':' :: Nat.toDigits 16 w) ++ ntopWords best none (i + gs.length) vs := by
  induction gs generalizing i with
  | nil => rfl
  | cons g gs ih =>
    rw [List.length_cons] at hout
    rw [List.cons_append, ntopWords_cons (by omega), if_neg hi, ih (Nat.succ_ne_zero i) (by omega),
      List.flatMap_cons, List.length_cons, Nat.succ_add_eq_add_succ]
    simp

/-- Words from the first one on. -/
theorem ntopWords_first (hout : best.2 = 0 ∨ gs.length ≤ best.1) : ntopWords best none 0 (gs ++ vs) =
    hexGroups gs ++ ntopWords best none gs.length vs := by
  cases gs with
  | nil => rfl
  | cons g gs =>
    rw [List.length_cons] at hout
    rw [List.cons_append, ntopWords_cons (by omega), if_pos rfl, List.nil_append,
      ntopWords_outside (Nat.succ_ne_zero 0) (by omega), hexGroups, List.append_assoc,
      List.length_cons, Nat.succ_add_eq_add_succ, Nat.zero_add]

/-- The rest of a run prints nothing. -/
theorem ntopWords_zeros {n : ℕ} (hi : best.1 < i) (hend : i + n = best.1 + best.2) :
    ntopWords best none i (List.replicate n 0 ++ vs) = ntopWords best none (best.1 + best.2) vs := by
  induction n generalizing i with
  | zero => rw [← hend]; rfl
  | succ n ih =>
    rw [List.replicate_succ, List.cons_append, ntopWords, if_pos (by omega), if_neg (by omega)]
    exact ih (by omega) (by omega)

/-- PRINT: around a run there are two colons, also where it begins or ends the address. -/
theorem text_compressed {n : ℕ} (hn : 2 ≤ n) (hlength : left.length + n + right.length = 8) :
    ntopWords (left.length, n) none 0 (left ++ List.replicate n 0 ++ right) ++
      (if left.length + n = 8 then [':'] else []) =
      hexGroups left ++ ':' :: ':' :: hexGroups right := by
  obtain ⟨m, rfl⟩ : ∃ m, n = m + 1 := ⟨n - 1, by omega⟩
  rw [List.append_assoc, ntopWords_first (.inr (le_refl _)), List.replicate_succ, List.cons_append,
    ntopWords, if_pos (by simp), if_pos rfl, ntopWords_zeros (by simp) (by simp; omega)]
  cases right with
  | nil =>
    rw [List.length_nil] at hlength
    rw [if_pos (by omega)]
    simp [ntopWords, hexGroups]
  | cons v vs =>
    rw [List.length_cons] at hlength
    rw [if_neg (by omega), ← List.append_nil (v :: vs), ntopWords_outside (by simp) (by simp)]
    simp [ntopWords, hexGroups]

/-- An address without a run. -/
theorem text_full : ntopWords (0, 0) none 0 ws = hexGroups ws := by
  have hfirst : ntopWords (0, 0) none 0 (ws ++ []) = hexGroups ws ++ ntopWords (0, 0) none ws.length [] :=
    ntopWords_first (.inl rfl)
  simpa [ntopWords] using hfirst

/-! Addresses -/

/-- IPv4-mapped and IPv4-compatible addresses. -/
def Dotted (ws : List ℕ) : Prop :=
  (ws.take 5 = List.replicate 5 0 ∧ ws.getD 5 0 = 0xffff) ∨
    (ws.take 6 = List.replicate 6 0 ∧ ws.getD 6 0 ≠ 0)

/-- How many digits these words have. -/
def digits (ws : List ℕ) : ℕ := (ws.map fun w => (Nat.toDigits 16 w).length).sum

/-- The digits of the words outside the run, and the colons. -/
def textLength (ws : List ℕ) : ℕ :=
  let (i, n) := zeroRun ws
  digits (ws.take i) + digits (ws.drop (i + n)) +
    if n = 0 then 7 else (8 - n) + (if i = 0 then 1 else 0) + if i + n = 8 then 1 else 0

instance (ws : List ℕ) : Decidable (Dotted ws) := inferInstanceAs (Decidable (_ ∨ _))

/-- Where libc puts a quad. -/
def Embedded (ws : List ℕ) : Prop :=
  (zeroRun ws).1 = 0 ∧ ((zeroRun ws).2 = 6 ∨ ((zeroRun ws).2 = 5 ∧ ws.getD 5 0 = 0xffff))

theorem zeroRun_mapped (u v : ℕ) : zeroRun [0, 0, 0, 0, 0, 0xffff, u, v] = (0, 5) := by
  have hrange : List.range 8 = [0, 1, 2, 3, 4, 5, 6, 7] := by decide
  rcases eq_or_ne u 0 with rfl | hu
  · rcases eq_or_ne v 0 with rfl | hv
    · decide
    · simp [zeroRun, hrange, hv]
  · rcases eq_or_ne v 0 with rfl | hv
    · simp [zeroRun, hrange, hu]
    · simp [zeroRun, hrange, hu, hv]

theorem zeroRun_compatible {u : ℕ} (hu : u ≠ 0) (v : ℕ) :
    zeroRun [0, 0, 0, 0, 0, 0, u, v] = (0, 6) := by
  have hrange : List.range 8 = [0, 1, 2, 3, 4, 5, 6, 7] := by decide
  rcases eq_or_ne v 0 with rfl | hv
  · simp [zeroRun, hrange, hu]
  · simp [zeroRun, hrange, hu, hv]

theorem take_of_zeroRun {n : ℕ} (h : zeroRun ws = (0, n)) (hn : n ≠ 0) :
    ws.take n = List.replicate n 0 ∧ ws[n]? ≠ some 0 := by
  rcases zeroRun_cases ws with hnone | ⟨i, hrun, -⟩
  · rw [hnone, Prod.mk.injEq] at h
    exact absurd h.2.symm hn
  · rw [h] at hrun
    obtain rfl : 0 = i := congrArg Prod.fst hrun
    have hlength : (runAt ws 0).2 = n := (congrArg Prod.snd hrun).symm
    have hsplit := split_runAt ws 0
    have hnext := next_runAt ws 0
    rw [hlength, Nat.zero_add] at hsplit hnext
    refine ⟨?_, hnext⟩
    rw [hsplit]
    exact List.take_left' List.length_replicate

theorem embedded_iff (hlength : ws.length = 8) : Embedded ws ↔ Dotted ws := by
  constructor
  · rintro ⟨hstart, hsix | ⟨hfive, hmapped⟩⟩
    · obtain ⟨hzeros, hnext⟩ := take_of_zeroRun (Prod.ext hstart hsix) (by decide)
      refine .inr ⟨hzeros, ?_⟩
      rw [List.getD_eq_getElem?_getD, List.getElem?_eq_getElem (by omega), Option.getD_some]
      rw [List.getElem?_eq_getElem (by omega)] at hnext
      exact fun hzero => hnext (congrArg some hzero)
    · obtain ⟨hzeros, -⟩ := take_of_zeroRun (Prod.ext hstart hfive) (by decide)
      exact .inl ⟨hzeros, hmapped⟩
  · obtain ⟨w₀, w₁, w₂, w₃, w₄, w₅, u, v, rfl⟩ : ∃ w₀ w₁ w₂ w₃ w₄ w₅ u v,
        ws = [w₀, w₁, w₂, w₃, w₄, w₅, u, v] := by
      match ws, hlength with
      | [w₀, w₁, w₂, w₃, w₄, w₅, u, v], _ => exact ⟨w₀, w₁, w₂, w₃, w₄, w₅, u, v, rfl⟩
    rintro (⟨hzeros, hmapped⟩ | ⟨hzeros, hnext⟩)
    · simp only [List.take_succ_cons, List.take_zero, List.replicate, List.cons.injEq] at hzeros
      obtain ⟨rfl, rfl, rfl, rfl, rfl, -⟩ := hzeros
      obtain rfl : w₅ = 0xffff := hmapped
      rw [Embedded, zeroRun_mapped]
      exact ⟨rfl, .inr ⟨rfl, rfl⟩⟩
    · simp only [List.take_succ_cons, List.take_zero, List.replicate, List.cons.injEq] at hzeros
      obtain ⟨rfl, rfl, rfl, rfl, rfl, rfl, -⟩ := hzeros
      rw [Embedded, zeroRun_compatible (show u ≠ 0 from hnext)]
      exact ⟨rfl, .inl rfl⟩

/-- The run, and the words before and after it. -/
theorem zeroRun_split (ws : List ℕ) : zeroRun ws = (0, 0) ∨ ∃ i n, zeroRun ws = (i, n) ∧ 2 ≤ n ∧
    i + n ≤ ws.length ∧ ws = ws.take i ++ List.replicate n 0 ++ ws.drop (i + n) := by
  refine (zeroRun_cases ws).imp_right ?_
  rintro ⟨i, hrun, htwo⟩
  refine ⟨i, (runAt ws i).2, hrun, htwo, ?_, split_runAt ws i⟩
  have hwithin : (runAt ws i).2 ≤ (ws.drop i).length := (List.takeWhile_sublist _).length_le
  rw [List.length_drop] at hwithin
  omega

/-- The text of an address that is not dotted. -/
def plainText (ws : List ℕ) : List Char :=
  if (zeroRun ws).2 = 0 then hexGroups ws
  else hexGroups (ws.take (zeroRun ws).1) ++
    ':' :: ':' :: hexGroups (ws.drop ((zeroRun ws).1 + (zeroRun ws).2))

theorem text_eq_plainText (hlength : ws.length = 8) : ntopWords (zeroRun ws) none 0 ws ++
    (if (zeroRun ws).1 + (zeroRun ws).2 = 8 then [':'] else []) = plainText ws := by
  rw [plainText]
  rcases zeroRun_split ws with hrun | ⟨i, n, hrun, htwo, hwithin, hsplit⟩
  · rw [hrun, if_pos rfl, if_neg (by decide), List.append_nil, text_full]
  · have hleft : (ws.take i).length = i := List.length_take_of_le (by omega)
    have hlengths : (ws.take i).length + n + (ws.drop (i + n)).length = 8 := by
      rw [hleft, List.length_drop]
      omega
    have htext := text_compressed htwo hlengths
    rw [← hsplit, hleft] at htext
    have hne : n ≠ 0 := by omega
    simp only [hrun, if_neg hne]
    exact htext

theorem picoStringToIpv6_plainText (hlength : ws.length = 8) (hws : ∀ w ∈ ws, w < 65536) :
    picoStringToIpv6 (plainText ws) = .ok (bytes ws) := by
  rw [plainText]
  rcases zeroRun_split ws with hrun | ⟨i, n, hrun, htwo, hwithin, hsplit⟩
  · rw [hrun, if_pos rfl]
    exact picoStringToIpv6_full hws hlength
  · have hleft : (ws.take i).length = i := List.length_take_of_le (by omega)
    have hlengths : (ws.take i ++ ws.drop (i + n)).length + n = 8 := by
      rw [List.length_append, hleft, List.length_drop]
      omega
    have hne : n ≠ 0 := by omega
    simp only [hrun, if_neg hne]
    rw [picoStringToIpv6_compressed (fun w hw => hws w (List.mem_of_mem_take hw))
      (fun w hw => hws w (List.mem_of_mem_drop hw)) (by omega), show 8 - (ws.take i ++ ws.drop (i + n)).length = n by omega, ← hsplit]

theorem hex_of_hexGroups {x : Char} (hx : x ∈ hexGroups ws) : picoIsHex x ∨ x = ':' := by
  cases ws with
  | nil => cases hx
  | cons w ws =>
    rcases List.mem_append.mp hx with hfirst | hrest
    · exact .inl (hex_of_word w x hfirst)
    · obtain ⟨v, -, hv⟩ := List.mem_flatMap.mp hrest
      rcases List.mem_cons.mp hv with rfl | hdigit
      · exact .inr rfl
      · exact .inl (hex_of_word v x hdigit)

theorem hex_of_plainText {x : Char} (hx : x ∈ plainText ws) : picoIsHex x ∨ x = ':' := by
  rw [plainText] at hx
  split at hx
  · exact hex_of_hexGroups hx
  · simp only [List.mem_append, List.mem_cons] at hx
    rcases hx with hleft | rfl | rfl | hright
    · exact hex_of_hexGroups hleft
    · exact .inr rfl
    · exact .inr rfl
    · exact hex_of_hexGroups hright

theorem isIpv6_plainText (hlength : ws.length = 8) : isIpv6 (plainText ws) := by
  rw [plainText]
  split
  · match ws, hlength with
    | w :: v :: vs, _ => simp [hexGroups, isIpv6]
  · simp [isIpv6]

theorem not_isIpv4_plainText : ¬ isIpv4 (plainText ws) := by
  intro hdot
  rcases hex_of_plainText hdot with hhex | hcolon
  · exact absurd hhex (by decide)
  · exact absurd hcolon (by decide)

theorem length_hexGroups : (hexGroups ws).length = digits ws + (ws.length - 1) := by
  have hrest : ∀ vs : List ℕ, (vs.flatMap fun w => ':' :: Nat.toDigits 16 w).length =
      digits vs + vs.length := by
    intro vs
    induction vs with
    | nil => rfl
    | cons v vs ih =>
      rw [List.flatMap_cons, List.length_append, ih, digits, digits, List.map_cons, List.sum_cons,
        List.length_cons, List.length_cons]
      omega
  cases ws with
  | nil => rfl
  | cons w ws =>
    rw [hexGroups, List.length_append, hrest, digits, digits, List.map_cons, List.sum_cons,
      List.length_cons]
    omega

theorem length_plainText (hlength : ws.length = 8) : (plainText ws).length = textLength ws := by
  rw [plainText, textLength]
  rcases zeroRun_split ws with hrun | ⟨i, n, hrun, htwo, hwithin, -⟩
  · simp only [hrun, if_true, length_hexGroups, hlength, List.take_zero, Nat.add_zero, List.drop_zero]
    have hnil : digits [] = 0 := rfl
    omega
  · have hleft : (ws.take i).length = i := List.length_take_of_le (by omega)
    have hne : n ≠ 0 := by omega
    simp only [hrun, if_neg hne, List.length_append, List.length_cons, length_hexGroups, hleft,
      List.length_drop, hlength]
    split <;> split <;> omega

/-! What libc writes and picoTCP reads -/

variable {m : Memory}

theorem length_words : (words m).length = 8 := rfl

theorem words_lt : ∀ w ∈ words m, w < 65536 := by
  intro w hw
  obtain ⟨i, -, rfl⟩ := List.mem_map.mp hw
  have hhigh := (m (2 * i)).toNat_lt
  have hlow := (m (2 * i + 1)).toNat_lt
  rw [word]
  omega

theorem bytes_words : bytes (words m) = (List.range 16).map m := by
  have hword : ∀ i, [UInt8.ofNat (word m i / 256), UInt8.ofNat (word m i)] =
      [m (2 * i), m (2 * i + 1)] := by
    intro i
    have hhigh := (m (2 * i)).toNat_lt
    have hlow := (m (2 * i + 1)).toNat_lt
    have hdiv : word m i / 256 = (m (2 * i)).toNat := by
      rw [word]
      omega
    have hmod : UInt8.ofNat (word m i) = m (2 * i + 1) := by
      apply UInt8.toNat_inj.mp
      rw [UInt8.toNat_ofNat', word]
      omega
    rw [hdiv, hmod, UInt8.ofNat_toNat]
  rw [bytes, words, List.flatMap_map]
  simp only [hword]
  rfl

/-- The addresses whose text fits and has no quad. -/
def Passes (ws : List ℕ) : Prop := textLength ws < 28 ∧ ¬ Dotted ws

instance (ws : List ℕ) : Decidable (Passes ws) := inferInstanceAs (Decidable (_ ∧ _))

theorem inetNtop_plain (h : ¬ Dotted (words m)) (size : ℕ) :
    inetNtop m size = if size < textLength (words m) + 1 then none else some (plainText (words m)) := by
  have hno : ¬ ((zeroRun (words m)).1 = 0 ∧
      ((zeroRun (words m)).2 = 6 ∨ ((zeroRun (words m)).2 = 5 ∧ word m 5 = 0xffff))) := mt (embedded_iff length_words).mp h
  rw [← length_plainText length_words, ← text_eq_plainText length_words, inetNtop]
  rw [if_neg hno]

/-- READ BACK: the text of such an address is taken for an IPv6 one, and read as its 16 bytes. -/
theorem reads_back (h : Passes (words m)) : ∃ text, inetNtop m 28 = some text ∧ ¬ isIpv4 text ∧
    isIpv6 text ∧ picoStringToIpv6 text = .ok ((List.range 16).map m) := by
  refine ⟨plainText (words m), ?_, not_isIpv4_plainText, isIpv6_plainText length_words, ?_⟩
  · rw [inetNtop_plain h.2, if_neg (by have := h.1; omega)]
  · rw [picoStringToIpv6_plainText length_words words_lt, bytes_words]

/-- The text of a dotted address: a double colon, a word of ones or none, and the quad. -/
theorem inetNtop_dotted (h : Dotted (words m)) {size : ℕ} {text : List Char}
    (ht : inetNtop m size = some text) : ∃ quad, quad = inetNtoa (fun i => m (12 + i)) ∧
      (text = ':' :: ':' :: quad ∨ text = ':' :: ':' :: (Nat.toDigits 16 0xffff ++ ':' :: quad)) := by
  have hyes : (zeroRun (words m)).1 = 0 ∧
      ((zeroRun (words m)).2 = 6 ∨ ((zeroRun (words m)).2 = 5 ∧ word m 5 = 0xffff)) :=
    (embedded_iff length_words).mpr h
  have hwords : words m = [0, 0, 0, 0, 0, 0xffff, word m 6, word m 7] ∨
      word m 6 ≠ 0 ∧ words m = [0, 0, 0, 0, 0, 0, word m 6, word m 7] := by
    have hlist : words m = [word m 0, word m 1, word m 2, word m 3, word m 4, word m 5, word m 6,
      word m 7] := rfl
    rw [hlist] at h ⊢
    rcases h with ⟨hzeros, hmapped⟩ | ⟨hzeros, hnext⟩
    · simp only [List.take_succ_cons, List.take_zero, List.replicate, List.cons.injEq] at hzeros
      obtain ⟨h₀, h₁, h₂, h₃, h₄, -⟩ := hzeros
      have h₅ : word m 5 = 0xffff := hmapped
      exact .inl (by rw [h₀, h₁, h₂, h₃, h₄, h₅])
    · simp only [List.take_succ_cons, List.take_zero, List.replicate, List.cons.injEq] at hzeros
      obtain ⟨h₀, h₁, h₂, h₃, h₄, h₅, -⟩ := hzeros
      exact .inr ⟨hnext, by rw [h₀, h₁, h₂, h₃, h₄, h₅]⟩
  refine ⟨_, rfl, ?_⟩
  rw [inetNtop, if_pos hyes] at ht
  simp only [Option.ite_none_left_eq_some, Option.some.injEq] at ht
  obtain ⟨-, rfl⟩ := ht
  rcases hwords with hmapped | ⟨hnext, hcompatible⟩
  · rw [hmapped, zeroRun_mapped]
    exact .inr (by simp [ntopWords])
  · rw [hcompatible, zeroRun_compatible hnext]
    exact .inl (by simp [ntopWords])

/-- Where a text stops at the dot of a quad, picoTCP refuses it. -/
theorem ipv6Loop_quad (hh : ws.length ≤ h) (hroom : 4 * h ≤ 28)
    (sinAddr : Memory) : ipv6Loop (aligned ws h c d) (inetNtoa sinAddr) = .error .invalid := by
  obtain ⟨hdigits, hthree⟩ := digits_of_byte (sinAddr 0)
  exact ipv6Loop_dot hdigits (by simp) (by simp only [aligned]; omega) (by simp only [aligned]; omega)

theorem picoStringToIpv6_dotted (h : Dotted (words m)) {size : ℕ} {text : List Char}
    (ht : inetNtop m size = some text) : picoStringToIpv6 text = .error .invalid := by
  have hstart : (⟨List.replicate 16 0, 0, 0, 0, 0, 0⟩ : Ipv6Parse) = aligned [] 0 0 0 := rfl
  have hdouble : ∀ rest, ipv6Loop (aligned [] 0 0 0) (':' :: ':' :: rest) =
      ipv6Loop (aligned [] 2 2 0) rest := by
    intro rest
    have hfirst : ipv6Loop (aligned [] 0 0 0) (':' :: ':' :: rest) =
        ipv6Loop (aligned [] 1 1 0) (':' :: rest) := ipv6Loop_empty (.inl rfl)
    exact hfirst.trans (ipv6Loop_empty (.inl rfl))
  obtain ⟨quad, rfl, rfl | rfl⟩ := inetNtop_dotted h ht
  · rw [picoStringToIpv6, hstart, hdouble, ipv6Loop_quad (by simp) (by decide)]
    rfl
  · rw [picoStringToIpv6, hstart, hdouble, ipv6Loop_word (by decide) (by decide),
      ipv6Loop_quad (by simp) (by decide)]
    rfl

/-- Every other address has libc print nothing, or a quad. -/
theorem not_reads_back (h : ¬ Passes (words m)) : inetNtop m 28 = none ∨
    ∃ text, inetNtop m 28 = some text ∧ isIpv4 text ∧ picoStringToIpv6 text = .error .invalid := by
  by_cases hdotted : Dotted (words m)
  · cases hntop : inetNtop m 28 with
    | none => exact .inl rfl
    | some text =>
      refine .inr ⟨text, rfl, ?_, picoStringToIpv6_dotted hdotted hntop⟩
      obtain ⟨quad, rfl, rfl | rfl⟩ := inetNtop_dotted hdotted hntop
      · simp [isIpv4, inetNtoa]
      · simp [isIpv4, inetNtoa]
  · rw [inetNtop_plain hdotted]
    refine .inl (if_pos ?_)
    rw [Passes, not_and_or, not_not, not_lt] at h
    have hlong := h.resolve_right hdotted
    omega

/-! The calls -/

open Family (World Masks Env)
open FdTable (slot getSocketFromFd)

/-- An open descriptor of an IPv6 socket. -/
def Socket6 (w : World) (fd : ℤ) : Prop :=
  match slot w.own.globals fd with
  | .ok (some l) => l.isIpv6 ≠ 0 ∧ (w.own.heap l.socket).isSome
  | _ => False

instance (w : World) (fd : ℤ) : Decidable (Socket6 w fd) := by
  unfold Socket6
  split <;> infer_instance

/-- `sin6_addr` of a `sockaddr_in6`. -/
def sin6Addr (addr : Memory) : Memory := fun i => addr (8 + i)

/-- picoTCP has been given these 16 bytes, as an IPv6 address. -/
def Given (w w' : World) (x : List UInt8) : Prop := ∃ net, w'.handed = ⟨net, .ip6 x⟩ :: w.handed

/-- The stack has no link for the address, or none that is valid in time. -/
def LinkRefused (env : Env) : Prop := (env.linkFind = false ∧ env.linkAdd = false) ∨ env.dad = false

/-- Whatever the stack frame holds and the stack answers: `bind()` gives picoTCP the bytes of the
    address, or the stack refuses it a link. -/
def BindGives (inner : Ownership.Binding) (masks : Masks) (w : World) (fd : ℤ) (addr : Memory) : Prop :=
  ∀ stale env, ∃ w', Family.step inner masks w (.bind fd addr 28 stale env) = some w' ∧
    (Given w w' ((List.range 16).map (sin6Addr addr)) ∨
      (w'.ret = -1 ∧ w'.handed = w.handed ∧ LinkRefused env))

def ConnectGives (inner : Ownership.Binding) (masks : Masks) (w : World) (fd : ℤ) (addr : Memory) :
    Prop :=
  ∀ stale ok, ∃ w', Family.step inner masks w (.connect fd addr 28 stale ok) = some w' ∧
    Given w w' ((List.range 16).map (sin6Addr addr))

variable {inner : Ownership.Binding} {masks : Masks} {w w' : World} {fd : ℤ} {addr : Memory}
  {a : ℕ} {address : List Char}

theorem stackCall_given (hsock : getSocketFromFd w.own.globals fd = .ok (some a))
    (hheap : (w.own.heap a).isSome) (o : Family.Address) (ok : Bool)
    (f : Socket.PicoSocket → Socket.PicoSocket) :
    ∃ w', Family.stackCall w fd a o ok f = some w' ∧ w'.handed = ⟨w.net a, o⟩ :: w.handed := by
  obtain ⟨s, hs⟩ := Option.isSome_iff_exists.mp hheap
  simp only [Family.stackCall, Ownership.onSocket, hsock, hs, Option.map_some]
  exact ⟨_, rfl, rfl⟩

theorem addrString_eq (stale : List Char) : Family.addrString addr 28 stale =
    some ((inetNtop (sin6Addr addr) 28).getD (cString stale)) := rfl

/-- A text that is read as an IPv6 address goes to the stack, through a link for it. -/
theorem fdPicoSocketBind_given {x : List UInt8} (env : Env)
    (hsock : getSocketFromFd w.own.globals fd = .ok (some a)) (hheap : (w.own.heap a).isSome)
    (hv4 : ¬ isIpv4 address) (hv6 : isIpv6 address) (hread : picoStringToIpv6 address = .ok x)
    (hmask : (picoStringToIpv6 masks.ipv6).toOption ≠ none) :
    ∃ w', Family.fdPicoSocketBind masks w fd a address env = some w' ∧
      (Given w w' x ∨ (w'.ret = -1 ∧ w'.handed = w.handed ∧ LinkRefused env)) := by
  rcases hnetmask : picoStringToIpv6 masks.ipv6 with err | netmask
  · rw [hnetmask] at hmask
    exact absurd rfl hmask
  · rw [Family.fdPicoSocketBind, if_neg hv4, if_pos hv6, hread, hnetmask]
    simp only
    cases hlink : Family.link w env (.ip6 x) with
    | none =>
      refine ⟨_, rfl, .inr ⟨rfl, rfl, .inl ?_⟩⟩
      rw [Family.link] at hlink
      split at hlink
      · cases hlink
      · split at hlink
        · cases hlink
        · rename_i hfind hadd
          exact ⟨Bool.not_eq_true _ ▸ hfind, Bool.not_eq_true _ ▸ hadd⟩
    | some u =>
      obtain ⟨hown, hnet, -, hhanded⟩ := Family.link_eq_some hlink
      simp only
      cases hdad : env.dad with
      | false => exact ⟨_, rfl, .inr ⟨rfl, hhanded, .inr hdad⟩⟩
      | true =>
        have hsock' : getSocketFromFd u.own.globals fd = .ok (some a) := hown ▸ hsock
        obtain ⟨w', hcall, hgiven⟩ := stackCall_given hsock' (hown ▸ hheap) (.ip6 x) env.ok
          Socket.picoSocketBind
        exact ⟨w', hcall, .inl ⟨_, hhanded ▸ hgiven⟩⟩

theorem Socket6.entry (h : Socket6 w fd) : ∃ l, slot w.own.globals fd = .ok (some l) ∧
    l.isIpv6 ≠ 0 ∧ (w.own.heap l.socket).isSome ∧
    getSocketFromFd w.own.globals fd = .ok (some l.socket) := by
  rw [Socket6] at h
  split at h
  · rename_i l hslot
    exact ⟨l, hslot, h.1, h.2, by rw [getSocketFromFd, hslot]; rfl⟩
  · exact h.elim

theorem bindGives_of_passes (h : Socket6 w fd) (hpasses : Passes (words (sin6Addr addr)))
    (hmask : (picoStringToIpv6 masks.ipv6).toOption ≠ none) : BindGives inner masks w fd addr := by
  intro stale env
  obtain ⟨l, -, -, hheap, hsock⟩ := h.entry
  obtain ⟨text, hntop, hv4, hv6, hread⟩ := reads_back hpasses
  obtain ⟨w', hcall, hgiven⟩ := fdPicoSocketBind_given env hsock hheap hv4 hv6 hread hmask
  refine ⟨w', ?_, hgiven⟩
  simp only [Family.step, hsock, addrString_eq, hntop, Option.getD_some]
  exact hcall

theorem connectGives_of_passes (h : Socket6 w fd) (hpasses : Passes (words (sin6Addr addr))) :
    ConnectGives inner masks w fd addr := by
  intro stale ok
  obtain ⟨l, hslot, hv6, hheap, hsock⟩ := h.entry
  obtain ⟨text, hntop, -, -, hread⟩ := reads_back hpasses
  obtain ⟨w', hcall, hgiven⟩ := stackCall_given hsock hheap (.ip6 ((List.range 16).map (sin6Addr addr)))
    ok Ownership.picoSocketConnect
  refine ⟨w', ?_, _, hgiven⟩
  simp only [Family.step, hslot, addrString_eq, hntop, Option.getD_some]
  rw [Family.fdPicoSocketConnect, if_neg hv6, hread]
  exact hcall

theorem stackCall_handed {o : Family.Address} {ok : Bool} {f : Socket.PicoSocket → Socket.PicoSocket}
    (h : Family.stackCall w fd a o ok f = some w') : w'.handed = ⟨w.net a, o⟩ :: w.handed := by
  obtain ⟨own, -, rfl⟩ := Option.map_eq_some_iff.mp h
  rfl

/-- Without an IPv6 text and a mask, `bind()` gives picoTCP no IPv6 address. -/
theorem fdPicoSocketBind_handed {env : Env} {x : List UInt8}
    (h : Family.fdPicoSocketBind masks w fd a address env = some w') (hgiven : Given w w' x) :
    ¬ isIpv4 address ∧ isIpv6 address ∧ picoStringToIpv6 address = .ok x ∧
      (picoStringToIpv6 masks.ipv6).toOption ≠ none := by
  obtain ⟨net, hgiven⟩ := hgiven
  have hsame : w'.handed ≠ w.handed := by
    rw [hgiven]
    exact List.cons_ne_self _ _
  rw [Family.fdPicoSocketBind] at h
  by_cases hv4 : isIpv4 address
  · rw [if_pos hv4] at h
    split at h
    · cases h
      exact absurd rfl hsame
    · split at h
      · cases h
        exact absurd rfl hsame
      · split at h
        · cases h
          exact absurd rfl hsame
        · rw [stackCall_handed h, List.cons.injEq] at hgiven
          cases hgiven.1
  · rw [if_neg hv4] at h
    by_cases hv6 : isIpv6 address
    · rw [if_pos hv6] at h
      rcases hread : picoStringToIpv6 address with (_ | _) | ip
      · rw [hread] at h
        cases h
        exact absurd rfl hsame
      · rw [hread] at h
        cases h
      · rcases hmask : picoStringToIpv6 masks.ipv6 with (_ | _) | netmask
        · rw [hread, hmask] at h
          cases h
          exact absurd rfl hsame
        · rw [hread, hmask] at h
          cases h
        · rw [hread, hmask] at h
          simp only at h
          split at h
          · cases h
            exact absurd rfl hsame
          · rename_i u hlink
            obtain ⟨-, -, -, hhanded⟩ := Family.link_eq_some hlink
            split at h
            · rw [stackCall_handed h, List.cons.injEq] at hgiven
              cases hgiven.1
              exact ⟨hv4, hv6, rfl, Option.some_ne_none _⟩
            · cases h
              exact absurd hhanded hsame
    · rw [if_neg hv6] at h
      cases h
      exact absurd rfl hsame

/-- The stack answers that there is a valid link. -/
def linked : Env := ⟨true, true, true, true⟩

theorem passes_of_bindGives (h : Socket6 w fd) (hgives : BindGives inner masks w fd addr) :
    Passes (words (sin6Addr addr)) ∧ (picoStringToIpv6 masks.ipv6).toOption ≠ none := by
  obtain ⟨l, -, -, -, hsock⟩ := h.entry
  -- the stack frame holds nothing, and the stack refuses nothing
  obtain ⟨w', hstep, hgiven | ⟨-, -, hrefused⟩⟩ := hgives [] linked
  · simp only [Family.step, hsock, addrString_eq] at hstep
    obtain ⟨hv4, hv6, hread, hmask⟩ := fdPicoSocketBind_handed hstep hgiven
    refine ⟨?_, hmask⟩
    by_contra hno
    rcases not_reads_back hno with hnone | ⟨text, hntop, hdot, -⟩
    · rw [hnone] at hv6
      exact absurd hv6 (by decide)
    · rw [hntop] at hv4
      exact hv4 hdot
  · rcases hrefused with ⟨hfind, -⟩ | hdad
    · cases hfind
    · cases hdad

theorem passes_of_connectGives (h : Socket6 w fd) (hgives : ConnectGives inner masks w fd addr) :
    Passes (words (sin6Addr addr)) := by
  obtain ⟨l, hslot, hv6, -, -⟩ := h.entry
  obtain ⟨w', hstep, net, hgiven⟩ := hgives [] true
  simp only [Family.step, hslot, addrString_eq] at hstep
  rw [Family.fdPicoSocketConnect, if_neg hv6] at hstep
  by_contra hno
  have hsame : w'.handed ≠ w.handed := by
    rw [hgiven]
    exact List.cons_ne_self _ _
  have hread : picoStringToIpv6 ((inetNtop (sin6Addr addr) 28).getD (cString [])) = .error .invalid := by
    rcases not_reads_back hno with hnone | ⟨text, hntop, -, hread⟩
    · rw [hnone]
      rfl
    · rw [hntop]
      exact hread
  rw [hread] at hstep
  cases hstep
  exact hsame rfl

/-- REACH: an address reaches the stack unchanged exactly if its text fits into 27 characters and has
    no quad; `bind()` also wants a mask that picoTCP can read. -/
theorem address_reaches_stack (h : Socket6 w fd) :
    (BindGives inner masks w fd addr ↔
      Passes (words (sin6Addr addr)) ∧ (picoStringToIpv6 masks.ipv6).toOption ≠ none) ∧
      (ConnectGives inner masks w fd addr ↔ Passes (words (sin6Addr addr))) :=
  ⟨⟨passes_of_bindGives h, fun hp => bindGives_of_passes h hp.1 hp.2⟩,
    passes_of_connectGives h, connectGives_of_passes h⟩

/-- An IPv6 socket. -/
def openSix : List Family.Act := [.socket .ipv6 50 .tcp (some (3, 4)) .all]

theorem openSix_runs :
    (Transition.run (Family.step .interposed Family.defaultMasks) (Family.begin 1024) openSix).isSome := by
  decide +kernel

theorem socket6_openSix : Socket6 (Option.get _ openSix_runs) 3 := by
  decide +kernel

/-- `2001::a` -/
theorem address_reaches_stack_global :
    BindGives .interposed Family.defaultMasks (Option.get _ openSix_runs) 3 Family.sockaddrIn6 ∧
      ConnectGives .interposed Family.defaultMasks (Option.get _ openSix_runs) 3 Family.sockaddrIn6 :=
  ⟨(address_reaches_stack socket6_openSix).1.mpr (by decide +kernel),
    (address_reaches_stack socket6_openSix).2.mpr (by decide +kernel)⟩

/-- `2001:db8:85a3:1234:5678:8a2e:370:7334`, 37 characters -/
def longAddr : Memory := fun i => ([10, 0, 0, 80, 0, 0, 0, 0, 0x20, 0x01, 0x0d, 0xb8, 0x85, 0xa3, 0x12,
  0x34, 0x56, 0x78, 0x8a, 0x2e, 0x03, 0x70, 0x73, 0x34] : List UInt8).getD i 0

/-- `inet_ntop` writes nothing, and what the stack frame held is taken for the address. -/
theorem long_address_lost : ¬ ∀ (inner : Ownership.Binding) (masks : Masks) (w : World) (fd : ℤ)
    (addr : Memory), Socket6 w fd →
      BindGives inner masks w fd addr ∧ ConnectGives inner masks w fd addr := by
  intro h
  have hgives : ConnectGives .interposed Family.defaultMasks (Option.get _ openSix_runs) 3 longAddr :=
    (h _ _ _ _ _ socket6_openSix).2
  exact absurd (passes_of_connectGives socket6_openSix hgives) (by decide +kernel)

end FdPicotcp.RoundTrip
