import FdPicotcp.Address.Links
import FdPicotcp.Address.Peer

/-! Which netmasks does `bind()` install?

    `set_ipv4_netmask` stores any text, and `fd_pico_socket_bind` reads it with the reader of addresses
    when a link is to be added. That reader takes every text of digits with one to three dots: it
    reduces a field modulo 256, reads an empty one as 0 and spreads two or three fields over the four
    bytes (`picoStringToIpv4_eq`). Nobody asks whether the result is a netmask, although the library
    has the test (`valid_iff_contiguous`). -/

namespace FdPicotcp.Netmask
open AddressText FdTable
open Dad (Addr picoIpv6LinkFind)
open Family (Masks)
open Links (Env)

/-! The call, with its status -/

/-- `ipv4_mask_string`, `ipv6_mask_string` and `fd_err` beside the links. -/
structure World extends Links.World where
  masks : Masks
  fdErr : FdErr

/-- `strcpy` into 16 bytes; a longer text is written past them. -/
def setIpv4Netmask (w : World) (newMask : List Char) : Option World :=
  if newMask.length < 16 then some { w with masks := { w.masks with ipv4 := newMask } } else none

/-- `fd_err = e; return -1;` -/
def World.fail (w : World) (e : FdErr) : World × ℤ := ({ w with fdErr := e }, -1)

/-- The stack's answer is returned as it is. -/
def World.returned (w : World) (r : Links.World × ℤ) : World × ℤ := ({ w with toWorld := r.1 }, r.2)

/-- The call of `Links`, with what it records. -/
def fdPicoSocketBind (w : World) (fd : ℤ) (address : List Char) (port : BitVec 16) (env : Env) :
    Option (World × ℤ) :=
  match w.ports.socketOf fd with
  | none => some (w.fail .socketNotFound)
  | some (a, s) =>
    if isIpv4 address then
      match picoStringToIpv4 address with
      | none => some (w.fail .invalidAddress)
      | some ip =>
        match picoStringToIpv4 w.masks.ipv4 with
        | none => some (w.fail .invalidNetmask)
        | some netmask =>
          match if (w.net.links4 ip).isSome then some w.net
            else Links.picoIpv4LinkAdd w.net ip netmask env.link with
          | none => some (w.fail .interfaceNotLinked)
          | some net => some (w.returned (Links.picoSocketBind w.toWorld net a s (.ip4 ip) port env))
    else if isIpv6 address then
      match picoStringToIpv6 address with
      | .error .overrun => none
      | .error .invalid => some (w.fail .invalidAddress)
      | .ok ip =>
        match picoStringToIpv6 w.masks.ipv6 with
        | .error .overrun => none
        | .error .invalid => some (w.fail .invalidNetmask)
        | .ok netmask =>
          match if picoIpv6LinkFind w.net.links6 ip then some w.net
            else Links.picoIpv6LinkAdd w.net ip netmask env.link with
          | none => some (w.fail .interfaceNotLinked)
          | some net => (Links.waitForDad ip net env.polls).map fun (net, found) =>
            if found then
              w.returned (Links.picoSocketBind w.toWorld net a s (.ip6 ip) port env)
            else { w with net }.fail .interfaceNotLinked
    else some (w.fail .invalidAddress)

/-- Without the status this is the call of `Links`. -/
theorem fdPicoSocketBind_links (w : World) (fd : ℤ) (address : List Char) (port : BitVec 16)
    (env : Env) : (fdPicoSocketBind w fd address port env).map (fun r => (r.1.toWorld, r.2)) =
      Links.fdPicoSocketBind w.masks w.toWorld fd address port env := by
  rw [fdPicoSocketBind, Links.fdPicoSocketBind]
  cases w.ports.socketOf fd with
  | none => rfl
  | some p =>
    simp only
    by_cases h4 : isIpv4 address
    · rw [if_pos h4, if_pos h4]
      cases picoStringToIpv4 address with
      | none => rfl
      | some ip =>
        cases picoStringToIpv4 w.masks.ipv4 with
        | none => rfl
        | some netmask =>
          simp only
          generalize (if (w.net.links4 ip).isSome = true then _ else _) = o
          cases o <;> rfl
    · rw [if_neg h4, if_neg h4]
      by_cases h6 : isIpv6 address
      · rw [if_pos h6, if_pos h6]
        rcases picoStringToIpv6 address with (_ | _) | ip
        · rfl
        · rfl
        · rcases picoStringToIpv6 w.masks.ipv6 with (_ | _) | netmask
          · rfl
          · rfl
          · simp only
            generalize (if picoIpv6LinkFind w.net.links6 ip = true then _ else _) = o
            cases o with
            | none => rfl
            | some net =>
              simp only
              cases Links.waitForDad ip net env.polls with
              | none => rfl
              | some r =>
                obtain ⟨net, found⟩ := r
                cases found <;> rfl
      · rw [if_neg h6, if_neg h6]
        rfl

/-! What the reader of addresses makes of a text -/

/-- The text between the dots. -/
def fields (s : List Char) : List (List Char) := s.splitOn '.'

/-- The value of a field. -/
def value (f : List Char) : ℕ := Nat.ofDigitChars 10 f 0

/-- The short notations put the last field in the last byte. -/
def expand : List UInt8 → Option Addr
  | [a, b] => some [a, 0, 0, b]
  | [a, b, c] => some [a, b, 0, c]
  | [a, b, c, d] => some [a, b, c, d]
  | _ => none

/-- Nothing but digits and dots. -/
def Plain (s : List Char) : Prop := ∀ c ∈ s, picoIsDigit c ∨ c = '.'

instance (s : List Char) : Decidable (Plain s) :=
  List.decidableBAll (fun c => picoIsDigit c ∨ c = '.') s

/-- A loop that ends before the fourth dot has seen nothing else. -/
theorem plain_of_ipv4Loop {s : List Char} {buf buf' : List UInt8} {cnt k : ℕ} (hcnt : cnt < 4)
    (h : ipv4Loop buf cnt s = some (buf', k)) (hk : k < 4) : Plain s := by
  induction s generalizing buf cnt with
  | nil => simp [Plain]
  | cons p s ih =>
    rw [ipv4Loop, if_neg (by omega)] at h
    have hrest : (∀ c ∈ s, picoIsDigit c ∨ c = '.') → picoIsDigit p ∨ p = '.' → Plain (p :: s) := by
      intro hs hp c hc
      rcases List.mem_cons.mp hc with rfl | hc
      · exact hp
      · exact hs c hc
    split at h
    · next hdigit => exact hrest (ih hcnt h) (.inl hdigit)
    · split at h
      · next hdot =>
        rcases Nat.lt_or_ge (cnt + 1) 4 with hlt | hge
        · exact hrest (ih hlt h) (.inr hdot)
        · have hk' : k = cnt + 1 := by
            cases s with
            | nil => simpa [ipv4Loop] using (congrArg (·.map Prod.snd) h).symm
            | cons q s =>
              rw [ipv4Loop, if_pos hge] at h
              simpa using (congrArg (·.map Prod.snd) h).symm
          omega
      · cases h

/-- Fields of a text of digits and dots are digits. -/
theorem digits_of_fields {s : List Char} (hs : Plain s) :
    ∀ f ∈ fields s, ∀ c ∈ f, picoIsDigit c := by
  induction s with
  | nil => simp [fields, List.splitOn_nil]
  | cons p s ih =>
    have ih := ih fun c hc => hs c (List.mem_cons_of_mem _ hc)
    have hp := hs p (List.mem_cons_self ..)
    intro f hf
    rw [fields, List.splitOn_cons_eq_if_modifyHead] at hf
    split at hf
    · rcases List.mem_cons.mp hf with rfl | hf
      · simp
      · exact ih f hf
    · next hdot =>
      have hdigit : picoIsDigit p := hp.resolve_right (by simpa using hdot)
      cases hsplit : s.splitOn '.' with
      | nil => exact absurd hsplit (List.splitOn_ne_nil '.' s)
      | cons g gs =>
        rw [hsplit, List.modifyHead_cons] at hf
        rw [fields, hsplit] at ih
        rcases List.mem_cons.mp hf with rfl | hf
        · intro c hc
          rcases List.mem_cons.mp hc with rfl | hc
          · exact hdigit
          · exact ih g (List.mem_cons_self ..) c hc
        · exact ih f (List.mem_cons_of_mem _ hf)

/-- The byte that the loop makes of a field. -/
theorem pushDigits_field (f : List Char) : pushDigits 0 f = .ofNat (value f) := pushDigits_ofNat f 0

/-- The reader on the fields put together again. -/
theorem picoStringToIpv4_intercalate {fs : List (List Char)}
    (hfs : ∀ f ∈ fs, ∀ c ∈ f, picoIsDigit c) :
    picoStringToIpv4 (['.'].intercalate fs) = expand (fs.map fun f => .ofNat (value f)) := by
  have hfield : ∀ f ∈ fs, ∀ (rest : List Char) (buf : List UInt8) (cnt : ℕ), cnt < 4 →
      ipv4Loop buf cnt (f ++ rest) = ipv4Loop (buf.modify cnt fun b => pushDigits b f) cnt rest :=
    fun f hf rest buf cnt hcnt => ipv4Loop_digits (hfs f hf) hcnt rest buf
  have hnil : ∀ buf cnt, ipv4Loop buf cnt [] = some (buf, cnt) := fun _ _ => rfl
  rcases fs with _ | ⟨a, _ | ⟨b, _ | ⟨c, _ | ⟨d, _ | ⟨e, fs⟩⟩⟩⟩⟩
  · rfl
  · have ha := hfield a (by simp) [] [0, 0, 0, 0] 0 (by decide)
    rw [List.append_nil] at ha
    simp [picoStringToIpv4, ha, hnil, expand]
  · have hb := hfield b (by simp) []
    simp only [List.append_nil] at hb
    simp [picoStringToIpv4, hfield a (by simp), ipv4Loop_dot, hb, hnil, pushDigits_field, expand]
  · have hc := hfield c (by simp) []
    simp only [List.append_nil] at hc
    simp [picoStringToIpv4, hfield a (by simp), hfield b (by simp), ipv4Loop_dot, hc, hnil,
      pushDigits_field, expand]
  · have hd := hfield d (by simp) []
    simp only [List.append_nil] at hd
    simp [picoStringToIpv4, hfield a (by simp), hfield b (by simp), hfield c (by simp), ipv4Loop_dot,
      hd, hnil, pushDigits_field, expand]
  · have hend : ∀ buf rest, ipv4Loop buf 4 rest = some (buf, 4) := by
      intro buf rest
      cases rest <;> simp [ipv4Loop]
    simp [picoStringToIpv4, List.intercalate_cons_of_ne_nil, hfield a (by simp), hfield b (by simp),
      hfield c (by simp), hfield d (by simp), ipv4Loop_dot, hend, expand]

/-- THE READER: it splits at the dots, takes every field modulo 256 and expands two to four. -/
theorem picoStringToIpv4_eq (s : List Char) : picoStringToIpv4 s =
    if Plain s then expand ((fields s).map fun f => .ofNat (value f)) else none := by
  by_cases hs : Plain s
  · rw [if_pos hs]
    have hdigits := digits_of_fields hs
    have htext : ['.'].intercalate (fields s) = s := List.intercalate_splitOn '.'
    rw [← picoStringToIpv4_intercalate hdigits, htext]
  · rw [if_neg hs, picoStringToIpv4]
    cases hloop : ipv4Loop [0, 0, 0, 0] 0 s with
    | none => rfl
    | some r =>
      obtain ⟨buf, cnt⟩ := r
      have hcnt : ¬ cnt < 4 := fun hlt => hs (plain_of_ipv4Loop (by decide) hloop hlt)
      simp only [Option.bind_some]
      rw [if_neg (by omega), if_neg (by omega), if_neg (by omega)]

/-! Netmasks -/

/-- The bits of a mask, the highest first. -/
def bits (mask : Addr) : List Bool :=
  mask.flatMap fun b => (List.range 8).map fun i => b.toNat.testBit (7 - i)

/-- Ones followed by zeros. -/
def Contiguous (mask : Addr) : Prop :=
  ∃ k l, bits mask = List.replicate k true ++ List.replicate l false

/-- The loop of `pico_ipv4_valid_netmask`: the ones counted, and whether a zero has come. -/
def validLoop : List Bool → ℤ → Bool → ℤ
  | [], cnt, _ => cnt
  | true :: bs, cnt, fin => if fin then -1 else validLoop bs (cnt + 1) fin
  | false :: bs, cnt, _ => validLoop bs cnt true

/-- `pico_ipv4_valid_netmask`: the number of ones, or -1. -/
def picoIpv4ValidNetmask (mask : Addr) : ℤ := validLoop (bits mask) 0 false

theorem validLoop_end {bs : List Bool} {cnt : ℤ} (hcnt : 0 ≤ cnt) :
    validLoop bs cnt true ≠ -1 ↔ ∃ l, bs = List.replicate l false := by
  induction bs with
  | nil => exact iff_of_true (by rw [validLoop]; omega) ⟨0, rfl⟩
  | cons b bs ih =>
    cases b with
    | true =>
      rw [validLoop, if_pos rfl]
      refine iff_of_false (fun h => h rfl) ?_
      rintro ⟨l, hl⟩
      cases l <;> simp [List.replicate_succ] at hl
    | false =>
      rw [validLoop, ih]
      constructor
      · rintro ⟨l, rfl⟩
        exact ⟨l + 1, rfl⟩
      · rintro ⟨l, hl⟩
        cases l with
        | zero => cases hl
        | succ l => exact ⟨l, (List.cons.inj hl).2⟩

theorem validLoop_start {bs : List Bool} {cnt : ℤ} (hcnt : 0 ≤ cnt) : validLoop bs cnt false ≠ -1 ↔
    ∃ k l, bs = List.replicate k true ++ List.replicate l false := by
  induction bs generalizing cnt with
  | nil => exact iff_of_true (by rw [validLoop]; omega) ⟨0, 0, rfl⟩
  | cons b bs ih =>
    cases b with
    | true =>
      rw [validLoop, if_neg (by simp), ih (by omega)]
      constructor
      · rintro ⟨k, l, rfl⟩
        exact ⟨k + 1, l, rfl⟩
      · rintro ⟨k, l, hl⟩
        cases k with
        | zero => cases l <;> simp [List.replicate_succ] at hl
        | succ k => exact ⟨k, l, (List.cons.inj hl).2⟩
    | false =>
      rw [validLoop, validLoop_end hcnt]
      constructor
      · rintro ⟨l, rfl⟩
        exact ⟨0, l + 1, rfl⟩
      · rintro ⟨k, l, hl⟩
        cases k with
        | zero =>
          cases l with
          | zero => cases hl
          | succ l => exact ⟨l, (List.cons.inj hl).2⟩
        | succ k => simp [List.replicate_succ] at hl

/-- The library's own test, which nothing calls, accepts exactly the contiguous masks. -/
theorem valid_iff_contiguous (mask : Addr) : picoIpv4ValidNetmask mask ≠ -1 ↔ Contiguous mask :=
  validLoop_start le_rfl

instance (mask : Addr) : Decidable (Contiguous mask) :=
  decidable_of_iff _ (valid_iff_contiguous mask)

/-- Four decimal numbers between 0 and 255. -/
def IsQuad (s : List Char) : Prop :=
  Plain s ∧ (fields s).length = 4 ∧ ∀ f ∈ fields s, f ≠ [] ∧ value f ≤ 255

/-- One byte for each field. -/
def quadValue (s : List Char) : Addr := (fields s).map fun f => .ofNat (value f)

/-- What the reader takes: digits, and one to three dots. -/
def Accepted (s : List Char) : Prop := Plain s ∧ 2 ≤ (fields s).length ∧ (fields s).length ≤ 4

instance (s : List Char) : Decidable (IsQuad s) := inferInstanceAs (Decidable (_ ∧ _))

instance (s : List Char) : Decidable (Accepted s) := inferInstanceAs (Decidable (_ ∧ _))

theorem expand_isSome {bs : List UInt8} : (expand bs).isSome ↔ 2 ≤ bs.length ∧ bs.length ≤ 4 := by
  rcases bs with _ | ⟨a, _ | ⟨b, _ | ⟨c, _ | ⟨d, _ | ⟨e, bs⟩⟩⟩⟩⟩ <;> simp [expand]

theorem picoStringToIpv4_isSome (s : List Char) : (picoStringToIpv4 s).isSome ↔ Accepted s := by
  rw [picoStringToIpv4_eq, Accepted]
  split
  · next hs => rw [expand_isSome, List.length_map, and_iff_right hs]
  · next hs => exact iff_of_false (by simp) fun h => hs h.1

theorem IsQuad.read {s : List Char} (h : IsQuad s) : picoStringToIpv4 s = some (quadValue s) := by
  obtain ⟨hs, hlen, -⟩ := h
  rw [picoStringToIpv4_eq, if_pos hs, quadValue]
  obtain ⟨a, b, c, d, hfields⟩ := List.length_eq_four.mp hlen
  rw [hfields]
  rfl

/-- An IPv4 `bind()` that comes to `pico_ipv4_link_add` if the mask can be read, and gets its link. -/
structure AddsLink (w : World) (fd : ℤ) (address : List Char) (env : Env) (ip : Addr) : Prop where
  socket : (w.ports.socketOf fd).isSome
  ipv4 : isIpv4 address
  read : picoStringToIpv4 address = some ip
  new : w.net.links4 ip = none
  ok : env.link.ok = true

/-- The call has refused the mask, or installed the one that the text says. -/
def RealMask (w w' : World) (ret : ℤ) (ip : Addr) (s : List Char) : Prop :=
  (ret = -1 ∧ w'.fdErr = .invalidNetmask ∧ w'.net = w.net) ∨
    (IsQuad s ∧ w'.net.links4 ip = some (quadValue s) ∧ Contiguous (quadValue s))

variable {u w : World} {fd : ℤ} {address newMask : List Char} {port : BitVec 16} {env : Env} {ip : Addr}

/-- A mask that can be read is installed. -/
theorem bind_of_read (ha : AddsLink w fd address env ip) {netmask : Addr}
    (hmask : picoStringToIpv4 w.masks.ipv4 = some netmask) : ∃ w' ret,
      fdPicoSocketBind w fd address port env = some (w', ret) ∧ w'.net.links4 ip = some netmask := by
  obtain ⟨⟨a, s⟩, hsock⟩ := Option.isSome_iff_exists.mp ha.socket
  obtain ⟨net, hadd⟩ : ∃ net, Links.picoIpv4LinkAdd w.net ip netmask env.link = some net := by
    simp [Links.picoIpv4LinkAdd, ha.ok, ha.new]
  have hlinks := (Links.picoIpv4LinkAdd_eq_some hadd).2.1
  let r := w.returned (Links.picoSocketBind w.toWorld net a s (.ip4 ip) port env)
  have hbind : fdPicoSocketBind w fd address port env = some r := by
    rw [fdPicoSocketBind, hsock]
    simp only [if_pos ha.ipv4, ha.read, hmask, ha.new, Option.isSome_none, Bool.false_eq_true,
      if_false, hadd, r]
  have hnet : r.1.net = net := Links.picoSocketBind_net
  exact ⟨r.1, r.2, hbind, by rw [hnet, hlinks, Function.update_self]⟩

theorem bind_of_not_read (ha : AddsLink w fd address env ip)
    (hmask : picoStringToIpv4 w.masks.ipv4 = none) :
    fdPicoSocketBind w fd address port env = some (w.fail .invalidNetmask) := by
  obtain ⟨⟨a, s⟩, hsock⟩ := Option.isSome_iff_exists.mp ha.socket
  rw [fdPicoSocketBind, hsock]
  simp only [if_pos ha.ipv4, ha.read, hmask]

/-- REAL NETMASKS: an IPv4 `bind()` that adds a link refuses the stored text or installs the netmask
    it spells exactly if the reader refuses the text, or it is a dotted quad with a contiguous
    value. -/
theorem real_mask_iff (hset : setIpv4Netmask u newMask = some w) (ha : AddsLink w fd address env ip) :
    ∃ w' ret, fdPicoSocketBind w fd address port env = some (w', ret) ∧
      (RealMask w w' ret ip newMask ↔
        ¬ Accepted newMask ∨ (IsQuad newMask ∧ Contiguous (quadValue newMask))) := by
  have hmasks : w.masks.ipv4 = newMask := by
    rw [setIpv4Netmask, Option.ite_none_right_eq_some] at hset
    rw [← Option.some.inj hset.2]
  cases hread : picoStringToIpv4 newMask with
  | none =>
    have hno : ¬ Accepted newMask := by rw [← picoStringToIpv4_isSome, hread]; simp
    exact ⟨_, _, bind_of_not_read ha (hmasks ▸ hread),
      iff_of_true (.inl ⟨rfl, rfl, rfl⟩) (.inl hno)⟩
  | some netmask =>
    obtain ⟨w', ret, hbind, hlink⟩ := bind_of_read ha (hmasks ▸ hread)
    have hacc : Accepted newMask := by rw [← picoStringToIpv4_isSome, hread]; rfl
    refine ⟨w', ret, hbind, ?_⟩
    rw [or_iff_right (not_not.mpr hacc), RealMask]
    constructor
    · rintro (⟨-, -, hsame⟩ | ⟨hquad, -, hcont⟩)
      · rw [hsame, ha.new] at hlink
        cases hlink
      · exact ⟨hquad, hcont⟩
    · rintro ⟨hquad, hcont⟩
      have hvalue : netmask = quadValue newMask := Option.some.inj (hread.symm.trans hquad.read)
      exact .inr ⟨hquad, hvalue ▸ hlink, hcont⟩

/-- One IPv6 socket and no link, the masks as they are at the start. -/
def fresh : World := ⟨Links.bare, Family.defaultMasks, .ok⟩

/-- `255.0.255.0` -/
def gapText : List Char := ['2', '5', '5', '.', '0', '.', '2', '5', '5', '.', '0']

/-- `255.255.0.0` -/
def wideText : List Char := ['2', '5', '5', '.', '2', '5', '5', '.', '0', '.', '0']

theorem addsLink_of_set {newMask : List Char} (hset : setIpv4Netmask fresh newMask = some w) :
    AddsLink w 3 Links.ipv4Text Links.prompt [10, 0, 0, 2] := by
  rw [setIpv4Netmask, Option.ite_none_right_eq_some] at hset
  obtain ⟨-, hset⟩ := hset
  cases hset
  have hsock : (Links.bare.ports.socketOf 3).isSome := by decide
  exact ⟨hsock, by decide, by decide, rfl, rfl⟩

theorem wideText_set : (setIpv4Netmask fresh wideText).isSome := by decide

/-- A world in which this text is the mask. -/
def wide : World := Option.get _ wideText_set

theorem wide_binds : (fdPicoSocketBind wide 3 Links.ipv4Text 80 Links.prompt).isSome := by decide

theorem real_mask_iff_wideText : RealMask wide (Option.get _ wide_binds).1 (Option.get _ wide_binds).2
    [10, 0, 0, 2] wideText := by
  have hset : setIpv4Netmask fresh wideText = some wide := (Option.some_get wideText_set).symm
  obtain ⟨w', ret, hbind, hiff⟩ := real_mask_iff hset (addsLink_of_set hset)
  have hget : Option.get _ wide_binds = (w', ret) := Option.get_of_eq_some wide_binds hbind
  have hvalue : quadValue wideText = [255, 255, 0, 0] := by decide
  have hcont : Contiguous (quadValue wideText) := by
    rw [hvalue]
    exact (valid_iff_contiguous _).mp (by decide)
  rw [hget]
  exact hiff.mpr (.inr ⟨by decide, hcont⟩)

/-- A mask with a gap is installed. -/
theorem gap_installed : ¬ ∀ (u w : World) (newMask : List Char) (fd : ℤ) (address : List Char)
    (port : BitVec 16) (env : Env) (ip : Addr) (w' : World) (ret : ℤ),
    setIpv4Netmask u newMask = some w → AddsLink w fd address env ip →
    fdPicoSocketBind w fd address port env = some (w', ret) → RealMask w w' ret ip newMask := by
  intro h
  obtain ⟨w, hset, hmasks⟩ : ∃ w, setIpv4Netmask fresh gapText = some w ∧ w.masks.ipv4 = gapText :=
    ⟨_, rfl, rfl⟩
  have ha := addsLink_of_set hset
  have hread : picoStringToIpv4 w.masks.ipv4 = some [255, 0, 255, 0] := by
    rw [hmasks]
    decide
  obtain ⟨w', ret, hbind, hlink⟩ := bind_of_read ha hread
  rcases h _ _ _ _ _ 80 _ _ _ _ hset ha hbind with ⟨-, -, hsame⟩ | ⟨-, -, hcont⟩
  · rw [hsame, ha.new] at hlink
    cases hlink
  · exact absurd hcont (by decide +kernel)

end FdPicotcp.Netmask
