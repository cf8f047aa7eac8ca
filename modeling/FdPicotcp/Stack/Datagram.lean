import FdPicotcp.Stack.Fragments

/-! Is a datagram that is too long for one packet put together again (`stack/pico_socket.c`)?

    `pico_socket_xmit_fragments` cuts a UDP datagram up: the first fragment has the UDP header, and
    each fragment's field counts units of 8 bytes in front of it. -/

namespace FdPicotcp.Datagram
open Pieces Transition Fragments

/-- `sizeof(struct pico_udp_hdr)` -/
def sizeofUdpHdr : ℕ := 8

/-- `f->frag` and the transport part. -/
structure Frame where
  frag : BitVec 16
  transport : List UInt8

/-- `short_be` in memory -/
def bytes16 (x : BitVec 16) : List UInt8 := [⟨(x >>> 8).setWidth 8⟩, ⟨x.setWidth 8⟩]

/-- The header that `pico_udp_push` fills in. -/
def udpHeader (sport dport : BitVec 16) (transportLen : ℕ) : List UInt8 :=
  bytes16 sport ++ bytes16 dport ++ bytes16 (BitVec.ofNat 16 transportLen) ++ bytes16 0

/-- `pico_socket_xmit_first_fragment_setup`: `transport_len` is the space for data. -/
def firstFragment (sport dport : BitVec 16) (buf : List UInt8) (space : ℕ) : Frame :=
  ⟨picoIpv4Morefrag, udpHeader sport dport space ++ buf.take space⟩

/-- `pico_socket_xmit_next_fragment_setup` -/
def nextFragment (buf : List UInt8) (total space : ℕ) : Frame :=
  let frag := BitVec.ofNat 16 ((total + sizeofUdpHdr) >>> 3)
  ⟨if total + space < buf.length then frag ||| picoIpv4Morefrag else frag &&& picoIpv4FragMask,
    (buf.drop total).take space⟩

/-- The loop of `pico_socket_xmit_fragments`, which ends where there is no memory for a frame or no
    room for it in the queue (`taken`, by the bytes that are written already). -/
def xmitLoop (sport dport : BitVec 16) (buf : List UInt8) (taken : ℕ → Bool) :
    ℕ → ℕ → ℕ → ℕ → List Frame
  | 0, _, _, _ => []
  | n + 1, space, hdrOffset, total =>
    if total < buf.length ∧ taken total then
      let space := min (min space buf.length) (buf.length - total)
      if total = 0 then
        firstFragment sport dport buf space ::
          xmitLoop sport dport buf taken n (space + hdrOffset) 0 space
      else nextFragment buf total space :: xmitLoop sport dport buf taken n space hdrOffset (total + space)
    else []

/-- The frames of a datagram that is longer than `space`. -/
def picoSocketXmitFragments (sport dport : BitVec 16) (buf : List UInt8) (space : ℕ)
    (taken : ℕ → Bool) : List Frame :=
  xmitLoop sport dport buf taken buf.length space sizeofUdpHdr 0

/-- As it comes in from a device at the other end, `pico_ipv4_frame_push` having given it the
    addresses and the identification. -/
def arrived (q : Key) (x : Frame) : Fragment := ⟨q, 17, x.frag, 0, x.transport⟩

/-! The field -/

variable {sport dport : BitVec 16} {buf : List UInt8} {space n total : ℕ} {q : Key} {x : Frame}

theorem ip4FragOff_eq (frag : BitVec 16) : ip4FragOff frag = frag.toNat % 2 ^ 13 * 8 := by
  have hmask : picoIpv4FragMask.toNat = 2 ^ 13 - 1 := rfl
  rw [ip4FragOff, BitVec.toNat_and, hmask, Nat.and_two_pow_sub_one_eq_mod, Nat.shiftLeft_eq]

theorem eight_dvd_off (f : Fragment) : 8 ∣ f.off := by
  rw [Fragment.off, ip4FragOff_eq]
  exact Nat.dvd_mul_left ..

theorem ip4FragOff_or (frag : BitVec 16) : ip4FragOff (frag ||| picoIpv4Morefrag) = ip4FragOff frag := by
  have hbit : picoIpv4Morefrag.toNat % 2 ^ 13 = 0 := rfl
  rw [ip4FragOff_eq, ip4FragOff_eq, BitVec.toNat_or, Nat.or_mod_two_pow, hbit, Nat.or_zero]

theorem ip4FragOff_and (frag : BitVec 16) : ip4FragOff (frag &&& picoIpv4FragMask) = ip4FragOff frag := by
  rw [ip4FragOff, ip4FragOff, BitVec.and_assoc, BitVec.and_self]

theorem ip4FragMore_or (frag : BitVec 16) : ip4FragMore (frag ||| picoIpv4Morefrag) = true := by
  rw [ip4FragMore, decide_eq_true_eq]
  intro hzero
  have hbit : ((frag ||| picoIpv4Morefrag) &&& picoIpv4Morefrag).getLsbD 13 = true := by
    simp [picoIpv4Morefrag]
  rw [hzero] at hbit
  exact absurd hbit (by decide)

theorem ip4FragMore_and (frag : BitVec 16) : ip4FragMore (frag &&& picoIpv4FragMask) = false := by
  have hapart : picoIpv4FragMask &&& picoIpv4Morefrag = 0 := rfl
  rw [ip4FragMore, BitVec.and_assoc, hapart]
  simp

theorem ip4FragOff_zero : ip4FragOff 0 = 0 := by decide

theorem length_udpHeader (sport dport : BitVec 16) (len : ℕ) :
    (udpHeader sport dport len).length = sizeofUdpHdr := rfl

theorem arrived_first_off : (arrived q (firstFragment sport dport buf space)).off = 0 := by
  have hoff : ip4FragOff picoIpv4Morefrag = 0 := by decide
  exact hoff

theorem firstFragment_more (sport dport : BitVec 16) (buf : List UInt8) (space : ℕ) :
    ip4FragMore (firstFragment sport dport buf space).frag = true := by
  have hmore : ip4FragMore picoIpv4Morefrag = true := by decide
  exact hmore

theorem arrived_first_more : (arrived q (firstFragment sport dport buf space)).more = true :=
  firstFragment_more sport dport buf space

/-- The offset of a next fragment, rounded down to a unit. -/
theorem nextFragment_off (hfit : total + sizeofUdpHdr < 2 ^ 16) :
    ip4FragOff (nextFragment buf total space).frag = (total + sizeofUdpHdr) / 8 * 8 := by
  have hcut : ip4FragOff (nextFragment buf total space).frag =
      ip4FragOff (BitVec.ofNat 16 ((total + sizeofUdpHdr) >>> 3)) := by
    rw [nextFragment]
    simp only
    split
    · rw [ip4FragOff_or]
    · rw [ip4FragOff_and]
  rw [hcut, ip4FragOff_eq, BitVec.toNat_ofNat, Nat.shiftRight_eq_div_pow]
  omega

theorem nextFragment_more :
    ip4FragMore (nextFragment buf total space).frag = decide (total + space < buf.length) := by
  rw [nextFragment]
  simp only
  split
  · rename_i h
    rw [ip4FragMore_or, decide_eq_true h]
  · rename_i h
    rw [ip4FragMore_and, decide_eq_false h]

/-! The pieces -/

/-- What the other end is to get. -/
def datagram (sport dport : BitVec 16) (space : ℕ) (buf : List UInt8) : List UInt8 :=
  udpHeader sport dport space ++ buf

theorem length_datagram : (datagram sport dport space buf).length = sizeofUdpHdr + buf.length := by
  rw [datagram, List.length_append, length_udpHeader]

theorem drop_datagram :
    (datagram sport dport space buf).drop (total + sizeofUdpHdr) = buf.drop total := by
  rw [datagram, List.drop_append, length_udpHeader, Nat.add_sub_cancel, List.drop_eq_nil_of_le,
    List.nil_append]
  rw [length_udpHeader]
  exact Nat.le_add_left ..

theorem isPart_first (h : space < buf.length) {p : Piece} (hstart : p.start = 0)
    (hstop : p.stop = space + sizeofUdpHdr) :
    IsPart (datagram sport dport space buf) p (arrived q (firstFragment sport dport buf space)) := by
  have hlen := p.start_add_len
  refine ⟨?_, ?_, ?_, ?_⟩
  · rw [hstart, arrived_first_off]
  · rw [arrived_first_more, length_datagram, decide_eq_true]
    omega
  · rw [length_datagram]
    omega
  · have hplen : p.len = sizeofUdpHdr + space := by omega
    have hheader : (udpHeader sport dport space).take (sizeofUdpHdr + space) =
        udpHeader sport dport space := by
      rw [List.take_of_length_le]
      rw [length_udpHeader]
      exact Nat.le_add_right ..
    rw [hstart, List.drop_zero, hplen, datagram, List.take_append, hheader, length_udpHeader,
      Nat.add_sub_cancel_left]
    rfl

theorem isPart_next {len : ℕ} (hdvd : 8 ∣ total + sizeofUdpHdr) (hle : total + len ≤ buf.length)
    (hfit : buf.length + sizeofUdpHdr < 2 ^ 16) {p : Piece} (hstart : p.start = total + sizeofUdpHdr)
    (hlen : p.len = len) :
    IsPart (datagram sport dport space buf) p (arrived q (nextFragment buf total len)) := by
  have hstop := p.start_add_len
  refine ⟨?_, ?_, ?_, ?_⟩
  · rw [Fragment.off, arrived, nextFragment_off (by omega), hstart, Nat.div_mul_cancel hdvd]
  · rw [Fragment.more, arrived, nextFragment_more, length_datagram]
    refine decide_eq_decide.mpr ?_
    omega
  · rw [length_datagram]
    omega
  · rw [hstart, drop_datagram, hlen]
    rfl

/-- The frame brings the piece. -/
def BringsPiece (q : Key) (d : List UInt8) (x : Frame) (p : Piece) : Prop := IsPart d p (arrived q x)

theorem xmitLoop_end {taken : ℕ → Bool} {hdrOffset : ℕ} :
    xmitLoop sport dport buf taken n space hdrOffset buf.length = [] := by
  cases n with
  | zero => rfl
  | succ n => rw [xmitLoop, if_neg (by simp)]

/-- NEXT: full fragments, and what is left. -/
theorem xmitLoop_pieces {full : ℕ} (hunit : 8 ∣ full) (hfull : 0 < full)
    (hfit : buf.length + sizeofUdpHdr < 2 ^ 16) (hn : buf.length ≤ total + n) (hpos : 0 < total)
    (hle : total ≤ buf.length) (hdvd : 8 ∣ total + sizeofUdpHdr) :
    ∃ ps, Follow (total + sizeofUdpHdr) ps (buf.length + sizeofUdpHdr) ∧
      List.Forall₂ (BringsPiece q (datagram sport dport space buf))
        (xmitLoop sport dport buf (fun _ => true) n full 0 total) ps := by
  induction n generalizing total with
  | zero => exact ⟨[], by rw [Follow]; omega, .nil⟩
  | succ n ih =>
    by_cases hlt : total < buf.length
    · obtain ⟨len, hlen⟩ : ∃ len, min (min full buf.length) (buf.length - total) = len := ⟨_, rfl⟩
      obtain ⟨p, hstart, hstop⟩ : ∃ p : Piece, p.start = total + sizeofUdpHdr ∧
          p.stop = total + sizeofUdpHdr + len :=
        ⟨⟨total + sizeofUdpHdr, total + sizeofUdpHdr + len, by omega⟩, rfl, rfl⟩
      have hplen := p.start_add_len
      have hpart : IsPart (datagram sport dport space buf) p (arrived q (nextFragment buf total len)) :=
        isPart_next hdvd (by omega) hfit hstart (by omega)
      rw [xmitLoop, if_pos ⟨hlt, rfl⟩, if_neg (by omega), hlen]
      by_cases hrest : full ≤ buf.length - total
      · obtain rfl : len = full := by omega
        have hmore : buf.length ≤ total + len + n := by omega
        have hnext : 8 ∣ total + len + sizeofUdpHdr := by
          rw [Nat.add_right_comm]
          exact Nat.dvd_add hdvd hunit
        obtain ⟨ps, hfollow, hps⟩ := ih hmore (by omega) (by omega) hnext
        refine ⟨p :: ps, ⟨hstart, ?_⟩, .cons hpart hps⟩
        rwa [hstop, Nat.add_right_comm]
      · obtain rfl : len = buf.length - total := by omega
        rw [Nat.add_sub_cancel' hle, xmitLoop_end]
        refine ⟨[p], ⟨hstart, ?_⟩, .cons hpart .nil⟩
        rw [Follow, hstop]
        omega
    · obtain rfl : total = buf.length := by omega
      rw [xmitLoop_end]
      exact ⟨[], rfl, .nil⟩

/-- The frames are the pieces of the datagram, if a full one is a number of units. -/
theorem picoSocketXmitFragments_pieces (hspace : 0 < space) (hlong : space < buf.length)
    (hfit : buf.length + sizeofUdpHdr < 2 ^ 16) (hunit : 8 ∣ space + sizeofUdpHdr) :
    ∃ ps, Follow 0 ps (datagram sport dport space buf).length ∧
      List.Forall₂ (BringsPiece q (datagram sport dport space buf))
        (picoSocketXmitFragments sport dport buf space fun _ => true) ps := by
  obtain ⟨p, hstart, hstop⟩ : ∃ p : Piece, p.start = 0 ∧ p.stop = space + sizeofUdpHdr :=
    ⟨⟨0, space + sizeofUdpHdr, by omega⟩, rfl, rfl⟩
  obtain ⟨n, hn⟩ : ∃ n, buf.length = n + 1 := Nat.exists_eq_succ_of_ne_zero (by omega)
  obtain ⟨ps, hfollow, hps⟩ := xmitLoop_pieces (n := n) hunit (by omega) hfit (by omega) hspace hlong.le
    hunit
  have hmin : min (min space buf.length) (buf.length - 0) = space := by omega
  refine ⟨p :: ps, ⟨hstart, ?_⟩, ?_⟩
  · rwa [hstop, length_datagram, Nat.add_comm sizeofUdpHdr]
  · rw [picoSocketXmitFragments, hn, xmitLoop, if_pos ⟨by omega, rfl⟩, if_pos rfl, hmin]
    exact .cons (isPart_first hlong hstart hstop) hps

/-! Frames of which a full one is not a number of units -/

theorem xmitLoop_next {taken : ℕ → Bool} {hdrOffset : ℕ} (hpos : 0 < total)
    (hx : x ∈ xmitLoop sport dport buf taken n space hdrOffset total) :
    ∃ t len, total ≤ t ∧ t < buf.length ∧ x = nextFragment buf t len := by
  induction n generalizing total space hdrOffset with
  | zero => cases hx
  | succ n ih =>
    rw [xmitLoop] at hx
    split at hx
    · rename_i hlt
      simp only at hx
      rw [if_neg (by omega)] at hx
      rcases List.mem_cons.mp hx with rfl | hx
      · exact ⟨total, _, le_rfl, hlt.1, rfl⟩
      · obtain ⟨t, len, hle, ht, rfl⟩ := ih (by omega) hx
        exact ⟨t, len, by omega, ht, rfl⟩
    · cases hx

/-- The first frame, or one with a later offset. -/
theorem picoSocketXmitFragments_frame (hspace : 0 < space) (hlong : space < buf.length)
    (hfit : buf.length + sizeofUdpHdr < 2 ^ 16)
    (hx : x ∈ picoSocketXmitFragments sport dport buf space fun _ => true) :
    x = firstFragment sport dport buf space ∨ 0 < ip4FragOff x.frag := by
  obtain ⟨n, hn⟩ : ∃ n, buf.length = n + 1 := Nat.exists_eq_succ_of_ne_zero (by omega)
  have hmin : min (min space buf.length) (buf.length - 0) = space := by omega
  rw [picoSocketXmitFragments, hn, xmitLoop, if_pos ⟨by omega, rfl⟩, if_pos rfl, hmin] at hx
  rcases List.mem_cons.mp hx with rfl | hx
  · exact .inl rfl
  · obtain ⟨t, len, hle, ht, rfl⟩ := xmitLoop_next hspace hx
    right
    rw [nextFragment_off (by omega), sizeofUdpHdr]
    omega

/-- Nothing carries on after the first frame. -/
theorem checkLoop_odd (hspace : 0 < space) (hlong : space < buf.length)
    (hfit : buf.length + sizeofUdpHdr < 2 ^ 16) (hodd : ¬ 8 ∣ space + sizeofUdpHdr) {fs : List Fragment}
    (hfs : ∀ f ∈ fs, ∃ x ∈ picoSocketXmitFragments sport dport buf space fun _ => true, f = arrived q x) :
    checkLoop 0 fs = none := by
  cases fs with
  | nil => rfl
  | cons f fs =>
    obtain ⟨x, hx, rfl⟩ := hfs f (List.mem_cons_self ..)
    rw [checkLoop]
    split
    · rfl
    · rename_i hoff
      rw [not_not] at hoff
      obtain rfl : x = firstFragment sport dport buf space := by
        rcases picoSocketXmitFragments_frame hspace hlong hfit hx with rfl | hpos
        · rfl
        · have hzero : ip4FragOff x.frag = 0 := hoff
          omega
      have hlen : (arrived q (firstFragment sport dport buf space)).transport.length =
          space + sizeofUdpHdr := by
        rw [arrived, firstFragment, List.length_append, length_udpHeader, List.length_take]
        omega
      rw [if_pos arrived_first_more, hlen, Nat.zero_add]
      cases fs with
      | nil => rfl
      | cons g gs =>
        rw [checkLoop, if_pos]
        rintro hg
        exact hodd (hg ▸ eight_dvd_off g)

/-! The other end -/

/-- A frame of the datagram arrives, and there is memory. -/
def Delivers (q : Key) (xs : List Frame) : Act → Prop
  | .arrive f alloc _ => alloc = ⟨true, true, true⟩ ∧ ∃ x ∈ xs, f = arrived q x
  | .expire _ => False

theorem mem_arrivals {as : List Act} {f : Fragment} :
    f ∈ arrivals as ↔ ∃ alloc timer, .arrive f alloc timer ∈ as := by
  rw [arrivals, List.mem_filterMap]
  constructor
  · rintro ⟨a, ha, heq⟩
    cases a with
    | arrive g alloc timer =>
      rw [Option.some.injEq] at heq
      exact ⟨alloc, timer, heq ▸ ha⟩
    | expire timer => cases heq
  · rintro ⟨alloc, timer, ha⟩
    exact ⟨_, ha, rfl⟩

/-- The arrival with which the last piece is there. -/
theorem first_present {ps : List Piece} {d : List UInt8} {as : List Act}
    (has : ∀ a ∈ as, Of q d ps a) (hnone : ¬ Present ps []) (hall : Present ps (arrivals as)) :
    ∃ ks f alloc timer ls, as = ks ++ .arrive f alloc timer :: ls ∧ ¬ Present ps (arrivals ks) ∧
      Present ps (arrivals ks ++ [f]) := by
  induction as using List.reverseRecOn with
  | nil => exact absurd hall hnone
  | append_singleton as a ih =>
    by_cases hp : Present ps (arrivals as)
    · obtain ⟨ks, f, alloc, timer, ls, rfl, hks, hf⟩ :=
        ih (fun b hb => has b (List.mem_append_left _ hb)) hp
      exact ⟨ks, f, alloc, timer, ls ++ [a], by simp, hks, hf⟩
    · cases a with
      | expire timer => exact (has (.expire timer) (by simp)).elim
      | arrive f alloc timer =>
        refine ⟨as, f, alloc, timer, [], rfl, hp, ?_⟩
        simpa [arrivals] using hall

/-- A packet that was received stays received. -/
theorem received_run {s t : Reassembly} {as : List Act} (hr : run step s as = some t) :
    s.received <+: t.received :=
  run_invariant (I := fun u => s.received <+: u.received)
    (fun _ _ _ h hs => h.trans (received_step hs)) (List.prefix_refl _) hr

theorem exists_piece {d : List UInt8} {xs : List Frame} {ps : List Piece}
    (h : List.Forall₂ (BringsPiece q d) xs ps) (hx : x ∈ xs) : ∃ p ∈ ps, BringsPiece q d x p := by
  induction h with
  | nil => cases hx
  | cons hp _ ih =>
    rcases List.mem_cons.mp hx with rfl | hx
    · exact ⟨_, List.mem_cons_self .., hp⟩
    · obtain ⟨p, hpm, hxp⟩ := ih hx
      exact ⟨p, List.mem_cons_of_mem _ hpm, hxp⟩

theorem exists_frame {d : List UInt8} {xs : List Frame} {ps : List Piece} {p : Piece}
    (h : List.Forall₂ (BringsPiece q d) xs ps) (hp : p ∈ ps) : ∃ x ∈ xs, BringsPiece q d x p := by
  induction h with
  | nil => cases hp
  | cons hx _ ih =>
    rcases List.mem_cons.mp hp with rfl | hp
    · exact ⟨_, List.mem_cons_self .., hx⟩
    · obtain ⟨x, hxm, hxp⟩ := ih hp
      exact ⟨x, List.mem_cons_of_mem _ hxm, hxp⟩

/-- The fragments that the frames become. -/
def fragmentsOf (q : Key) (xs : List Frame) : Set Fragment := {f | ∃ x ∈ xs, f = arrived q x}

/-- Fragments of one datagram give it, or are never complete. -/
theorem assembles_frames (hspace : 0 < space) (hlong : space < buf.length)
    (hfit : picoSizeIp4hdr + sizeofUdpHdr + buf.length < 2 ^ 16) {fs : List Fragment} {len : ℕ}
    (hfs : ∀ f ∈ fs, f ∈ fragmentsOf q (picoSocketXmitFragments sport dport buf space fun _ => true))
    (hs : Sorted fs) (hc : checkLoop 0 fs = some len) :
    fs.flatMap (·.transport) = datagram sport dport space buf ∧
      len = (datagram sport dport space buf).length ∧ picoSizeIp4hdr + len < 2 ^ 16 := by
  by_cases hunit : 8 ∣ space + sizeofUdpHdr
  · obtain ⟨ps, hfollow, hps⟩ := picoSocketXmitFragments_pieces hspace hlong (by omega) hunit
    have hparts : ∀ f ∈ fs, ∃ p ∈ {p | p ∈ ps}, IsPart (datagram sport dport space buf) p f := by
      intro f hf
      obtain ⟨x, hx, rfl⟩ := hfs f hf
      exact exists_piece hps hx
    obtain ⟨hbytes, hlen⟩ :=
      checkLoop_bytes (fun p hp r hr _ => hfollow.apart.separate hp hr) hs hparts hc
    refine ⟨hbytes, hlen, ?_⟩
    rw [hlen, length_datagram]
    omega
  · rw [checkLoop_odd hspace hlong (by omega) hunit hfs] at hc
    cases hc

/-- Only the datagram is received. -/
theorem received_datagram {xs : List Frame} {as : List Act} {d : List UInt8}
    (hd : Assembles (fragmentsOf q xs) fun _ => d) (has : ∀ a ∈ as, Delivers q xs a) :
    ∃ c, run step idle as = some c ∧ ∀ p ∈ c.received, p = ⟨q.src, q.dst, 17, d⟩ := by
  have hproto : ∀ f ∈ fragmentsOf q xs, f.proto = Function.const Key 17 f.key := by
    rintro f ⟨x, -, rfl⟩
    rfl
  have hbrings : ∀ a ∈ as, Brings (fragmentsOf q xs) True a := by
    intro a ha
    cases a with
    | arrive f alloc timer =>
      obtain ⟨rfl, hf⟩ := has _ ha
      exact ⟨hf, fun _ => rfl⟩
    | expire timer => trivial
  -- a run that stops has failed to copy a fragment
  obtain ⟨c, hc⟩ : ∃ c, run step idle as = some c := by
    cases hr : run step idle as with
    | some c => exact ⟨c, rfl⟩
    | none =>
      obtain ⟨k, f, alloc, timer, l, s, rfl, -, -, hcopy⟩ := stopsAtNull_of_none hd hproto hbrings hr
      obtain ⟨rfl, -⟩ := has _ (List.mem_append_right k (List.mem_cons_self ..))
      exact absurd rfl hcopy
  refine ⟨c, hc, ?_⟩
  rintro ⟨src, dst, proto, transport⟩ hp
  obtain ⟨k, hk⟩ := (inv_run hd hproto hbrings hc).holds
  obtain ⟨f, ⟨x, -, rfl⟩, hsrc, hdst, hbytes, hpr⟩ := hk.received _ hp
  simp only at hsrc hdst hbytes hpr
  rw [hsrc, hdst, hbytes, hpr trivial]
  rfl

/-- A full fragment is a number of units: the last piece that arrives completes the datagram. -/
theorem received_units {as : List Act} (hspace : 0 < space) (hlong : space < buf.length)
    (hfit : picoSizeIp4hdr + sizeofUdpHdr + buf.length < 2 ^ 16) (hunit : 8 ∣ space + sizeofUdpHdr)
    (has : ∀ a ∈ as, Delivers q (picoSocketXmitFragments sport dport buf space fun _ => true) a)
    (hall : ∀ x ∈ picoSocketXmitFragments sport dport buf space fun _ => true,
      arrived q x ∈ arrivals as) :
    ∃ c, run step idle as = some c ∧ c.received ≠ [] ∧
      ∀ p ∈ c.received, p = ⟨q.src, q.dst, 17, datagram sport dport space buf⟩ := by
  obtain ⟨ps, hfollow, hps⟩ := picoSocketXmitFragments_pieces hspace hlong (by omega) hunit
  have hsize : picoSizeIp4hdr + (datagram sport dport space buf).length < 2 ^ 16 := by
    rw [length_datagram]
    omega
  have hnil : datagram sport dport space buf ≠ [] := by
    refine List.ne_nil_of_length_pos ?_
    rw [length_datagram]
    omega
  have hassembles : Assembles (fragmentsOf q (picoSocketXmitFragments sport dport buf space fun _ => true))
      fun _ => datagram sport dport space buf :=
    fun _ _ _ hfs hs hc => assembles_frames hspace hlong hfit (fun f hf => (hfs f hf).1) hs hc
  obtain ⟨c, hc, hreceived⟩ := received_datagram hassembles has
  refine ⟨c, hc, ?_, hreceived⟩
  have hof : ∀ a ∈ as, Of q (datagram sport dport space buf) ps a := by
    intro a ha
    cases a with
    | arrive f alloc timer =>
      obtain ⟨rfl, x, hx, rfl⟩ := has _ ha
      exact ⟨rfl, ip4FragOff_zero, exists_piece hps hx, rfl⟩
    | expire timer => exact has _ ha
  have hpresent : Present ps (arrivals as) := by
    intro p hp
    obtain ⟨x, hx, hpart⟩ := exists_frame hps hp
    exact ⟨arrived q x, hall x hx, hpart.off⟩
  have hnone : ¬ Present ps [] := by
    intro h
    cases ps with
    | nil => exact hnil (List.length_eq_zero_iff.mp hfollow.symm)
    | cons p ps =>
      obtain ⟨f, hf, -⟩ := h p (List.mem_cons_self ..)
      cases hf
  obtain ⟨ks, f, alloc, timer, ls, rfl, hmissing, hlast⟩ := first_present hof hnone hpresent
  rw [← List.singleton_append, ← List.append_assoc] at hc hof
  obtain ⟨u, hu, -, hgot⟩ := reassembled_any_order (s := idle) hfollow hnil hsize (.inr ⟨rfl, rfl⟩)
    (fun a ha => hof a (List.mem_append_left ls ha)) hmissing hlast
  obtain ⟨v, hv, hrest⟩ := run_append.mp hc
  obtain rfl : u = v := Option.some.inj (hu.symm.trans hv)
  have hprefix := received_run hrest
  rw [hgot] at hprefix
  intro hempty
  rw [hempty] at hprefix
  simp at hprefix

/-- ROUND TRIP: the fragments of a UDP datagram arrive in any order, each at least once. What the other
    end receives is the datagram, and it receives it exactly if the transport part of a full packet is a
    number of units of 8 bytes: 1480 bytes with an MTU of 1500 are, the 1260 of a socket whose device
    is not known yet are not. -/
theorem reassembled_iff {as : List Act} (hspace : 0 < space) (hlong : space < buf.length)
    (hfit : picoSizeIp4hdr + sizeofUdpHdr + buf.length < 2 ^ 16)
    (has : ∀ a ∈ as, Delivers q (picoSocketXmitFragments sport dport buf space fun _ => true) a)
    (hall : ∀ x ∈ picoSocketXmitFragments sport dport buf space fun _ => true,
      arrived q x ∈ arrivals as) :
    ∃ c, run step idle as = some c ∧
      (∀ p ∈ c.received, p = ⟨q.src, q.dst, 17, udpHeader sport dport space ++ buf⟩) ∧
      (c.received ≠ [] ↔ 8 ∣ space + sizeofUdpHdr) := by
  by_cases hunit : 8 ∣ space + sizeofUdpHdr
  · obtain ⟨c, hc, hne, hreceived⟩ := received_units hspace hlong hfit hunit has hall
    exact ⟨c, hc, hreceived, iff_of_true hne hunit⟩
  · have hassembles : ∀ d, Assembles
        (fragmentsOf q (picoSocketXmitFragments sport dport buf space fun _ => true)) fun _ => d := by
      intro d k fs len hfs hs hc
      rw [checkLoop_odd hspace hlong (by omega) hunit fun f hf => (hfs f hf).1] at hc
      cases hc
    -- what is received would be any datagram
    obtain ⟨c, hc, hnone⟩ := received_datagram (hassembles []) has
    obtain ⟨v, hv, hone⟩ := received_datagram (hassembles [0]) has
    obtain rfl : c = v := Option.some.inj (hc.symm.trans hv)
    have hempty : c.received = [] := by
      refine List.eq_nil_iff_forall_not_mem.mpr fun p hp => ?_
      have hp0 := hnone p hp
      rw [hone p hp] at hp0
      cases hp0
    exact ⟨c, hc, by simp [hempty], iff_of_false (not_not.mpr hempty) hunit⟩

/-- Twenty bytes, of which a packet takes eight beside the header; the second frame comes first. -/
theorem reassembled_iff_swapped :
    ∃ c, run step idle ((picoSocketXmitFragments 4000 53 (List.replicate 20 6) 8 fun _ => true).reverse.map
        fun x => .arrive (arrived ⟨1, 2, 7⟩ x) ⟨true, true, true⟩ none) = some c ∧
      (∀ p ∈ c.received, p = ⟨1, 2, 17, udpHeader 4000 53 8 ++ List.replicate 20 6⟩) ∧
      (c.received ≠ [] ↔ 8 ∣ 8 + sizeofUdpHdr) := by
  refine reassembled_iff (q := ⟨1, 2, 7⟩) (by decide) (by decide) (by decide) ?_ ?_
  · intro a ha
    obtain ⟨x, hx, rfl⟩ := List.mem_map.mp ha
    exact ⟨rfl, x, List.mem_reverse.mp hx, rfl⟩
  · intro x hx
    exact mem_arrivals.mpr ⟨_, _, List.mem_map.mpr ⟨x, List.mem_reverse.mpr hx, rfl⟩⟩

/-! Many datagrams, one after another -/

/-- A `sendto()`: where to, and what. `space` is what one frame can carry. -/
structure Send where
  dst : BitVec 32
  sport : BitVec 16
  dport : BitVec 16
  buf : List UInt8
  space : ℕ

/-- The frames of the datagram, with memory for all of them. -/
def Send.frames (m : Send) : List Frame :=
  picoSocketXmitFragments m.sport m.dport m.buf m.space fun _ => true

/-- A datagram that is cut up, or any packet that is not. -/
inductive Sending where
  | datagram (m : Send)
  | other

/-- `pico_ipv4_frame_push`: the next frame has the same identification while more fragments follow. -/
def pushFrames (src dst : BitVec 32) : BitVec 16 → List Frame → List Fragment × BitVec 16
  | id, [] => ([], id)
  | id, x :: xs =>
    let next := if ip4FragMore x.frag then id else id + 1
    let (fs, last) := pushFrames src dst next xs
    (arrived ⟨src, dst, id⟩ x :: fs, last)

/-- The fragments on the wire, from `ipv4_progressive_id` on. -/
def transmit (src : BitVec 32) : BitVec 16 → List Sending → List Fragment
  | _, [] => []
  | id, .other :: l => transmit src (id + 1) l
  | id, .datagram m :: l =>
    let (fs, next) := pushFrames src m.dst id m.frames
    fs ++ transmit src next l

variable {src dst : BitVec 32} {id : BitVec 16} {m : Send} {l : List Sending}

theorem pushFrames_more {xs : List Frame} (hmore : ip4FragMore x.frag = true) :
    pushFrames src dst id (x :: xs) =
      (arrived ⟨src, dst, id⟩ x :: (pushFrames src dst id xs).1, (pushFrames src dst id xs).2) := by
  rw [pushFrames, if_pos hmore]

theorem pushFrames_last (hmore : ip4FragMore x.frag = false) :
    pushFrames src dst id [x] = ([arrived ⟨src, dst, id⟩ x], id + 1) := by
  rw [pushFrames, if_neg (by simp [hmore])]
  rfl

/-- One identification for the rest of a datagram. -/
theorem pushFrames_xmitLoop {full : ℕ} (hfull : 0 < full) (hn : buf.length ≤ total + n) (hpos : 0 < total)
    (hlt : total < buf.length) :
    pushFrames src dst id (xmitLoop sport dport buf (fun _ => true) n full 0 total) =
      ((xmitLoop sport dport buf (fun _ => true) n full 0 total).map (arrived ⟨src, dst, id⟩), id + 1) := by
  induction n generalizing total with
  | zero => omega
  | succ n ih =>
    obtain ⟨len, hlen⟩ : ∃ len, min (min full buf.length) (buf.length - total) = len := ⟨_, rfl⟩
    rw [xmitLoop, if_pos ⟨hlt, rfl⟩, if_neg (by omega), hlen]
    have hmore : ip4FragMore (nextFragment buf total len).frag = decide (total + len < buf.length) :=
      nextFragment_more
    by_cases hrest : total + len < buf.length
    · obtain rfl : len = full := by omega
      rw [decide_eq_true hrest] at hmore
      rw [pushFrames_more hmore, ih (by omega) (by omega) hrest, List.map_cons]
    · have hend : total + len = buf.length := by omega
      rw [decide_eq_false hrest] at hmore
      rw [hend, xmitLoop_end, pushFrames_last hmore, List.map_singleton]

/-- One identification for a datagram, and the next one for the next. -/
theorem pushFrames_frames (hspace : 0 < m.space) (hlong : m.space < m.buf.length) :
    pushFrames src m.dst id m.frames = (m.frames.map (arrived ⟨src, m.dst, id⟩), id + 1) := by
  obtain ⟨n, hn⟩ : ∃ n, m.buf.length = n + 1 := Nat.exists_eq_succ_of_ne_zero (by omega)
  have hmin : min (min m.space m.buf.length) (m.buf.length - 0) = m.space := by omega
  have hmore := firstFragment_more m.sport m.dport m.buf m.space
  have hrest : m.buf.length ≤ m.space + n := by omega
  rw [Send.frames, picoSocketXmitFragments, hn, xmitLoop, if_pos ⟨by omega, rfl⟩, if_pos rfl, hmin,
    pushFrames_more hmore, pushFrames_xmitLoop (by omega) hrest hspace hlong, List.map_cons]

/-- What may be sent: a datagram that is longer than a packet and fits into the offsets. -/
def Fits : Sending → Prop
  | .datagram m => 0 < m.space ∧ m.space < m.buf.length ∧
      picoSizeIp4hdr + sizeofUdpHdr + m.buf.length < 2 ^ 16
  | .other => True

/-- A fragment on the wire counts the packets that were sent before its datagram. -/
theorem mem_transmit (hl : ∀ x ∈ l, Fits x) {f : Fragment} (hf : f ∈ transmit src id l) :
    ∃ i m, l[i]? = some (.datagram m) ∧ ∃ x ∈ m.frames,
      f = arrived ⟨src, m.dst, id + BitVec.ofNat 16 i⟩ x := by
  induction l generalizing id with
  | nil => cases hf
  | cons y l ih =>
    have hshift : ∀ i : ℕ, id + 1 + BitVec.ofNat 16 i = id + BitVec.ofNat 16 (i + 1) := by
      intro i
      rw [BitVec.add_assoc, Nat.add_comm i 1, BitVec.ofNat_add]
      rfl
    have htail : f ∈ transmit src (id + 1) l → ∃ i m, (y :: l)[i]? = some (.datagram m) ∧
        ∃ x ∈ m.frames, f = arrived ⟨src, m.dst, id + BitVec.ofNat 16 i⟩ x := by
      intro hmem
      obtain ⟨i, m, hi, x, hx, rfl⟩ := ih (fun z hz => hl z (List.mem_cons_of_mem y hz)) hmem
      exact ⟨i + 1, m, by simpa using hi, x, hx, by rw [hshift]⟩
    cases y with
    | other => exact htail hf
    | datagram m =>
      obtain ⟨hspace, hlong, -⟩ := hl (.datagram m) (List.mem_cons_self ..)
      rw [transmit, pushFrames_frames hspace hlong] at hf
      rcases List.mem_append.mp hf with hf | hf
      · obtain ⟨x, hx, rfl⟩ := List.mem_map.mp hf
        refine ⟨0, m, rfl, x, hx, ?_⟩
        rw [BitVec.add_zero]
      · exact htail hf

/-- The datagram whose fragments have the key. -/
def sentAs (id : BitVec 16) (l : List Sending) (k : Key) : List UInt8 :=
  match l[(k.id - id).toNat]? with
  | some (.datagram m) => datagram m.sport m.dport m.space m.buf
  | _ => []

/-- An identification comes again after `2^16` packets. -/
theorem sub_id (id : BitVec 16) {i : ℕ} (hi : i < 2 ^ 16) : (id + BitVec.ofNat 16 i - id).toNat = i := by
  rw [BitVec.add_comm, BitVec.add_sub_cancel, BitVec.toNat_ofNat, Nat.mod_eq_of_lt hi]

theorem sentAs_eq (hshort : l.length ≤ 2 ^ 16) {i : ℕ} (hi : l[i]? = some (.datagram m)) :
    sentAs id l ⟨src, dst, id + BitVec.ofNat 16 i⟩ = datagram m.sport m.dport m.space m.buf := by
  obtain ⟨hlt, -⟩ := List.getElem?_eq_some_iff.mp hi
  rw [sentAs, sub_id id (hlt.trans_le hshort), hi]

theorem assembles_transmit (hl : ∀ x ∈ l, Fits x) (hshort : l.length ≤ 2 ^ 16) :
    Assembles {f | f ∈ transmit src id l} (sentAs id l) := by
  intro k fs len hfs hs hc
  cases fs with
  | nil => cases hc
  | cons f fs =>
    obtain ⟨hf, rfl⟩ := hfs f (List.mem_cons_self ..)
    obtain ⟨i, m, hi, x, hx, rfl⟩ := mem_transmit hl hf
    obtain ⟨hilt, -⟩ := List.getElem?_eq_some_iff.mp hi
    obtain ⟨hspace, hlong, hfit⟩ := hl (.datagram m) (List.mem_of_getElem? hi)
    have hframes : ∀ g ∈ arrived ⟨src, m.dst, id + BitVec.ofNat 16 i⟩ x :: fs,
        g ∈ fragmentsOf ⟨src, m.dst, id + BitVec.ofNat 16 i⟩ m.frames := by
      intro g hg
      obtain ⟨hmem, hkey⟩ := hfs g hg
      obtain ⟨j, o, hj, y, hy, rfl⟩ := mem_transmit hl hmem
      obtain ⟨hjlt, -⟩ := List.getElem?_eq_some_iff.mp hj
      -- the same identification is the same datagram
      have hid : id + BitVec.ofNat 16 j = id + BitVec.ofNat 16 i := congrArg Key.id hkey
      have hji : j = i := by
        rw [← sub_id id (hjlt.trans_le hshort), hid, sub_id id (hilt.trans_le hshort)]
      subst hji
      rw [hi, Option.some.injEq, Sending.datagram.injEq] at hj
      subst hj
      exact ⟨y, hy, rfl⟩
    have hsent : sentAs id l ⟨src, m.dst, id + BitVec.ofNat 16 i⟩ =
        datagram m.sport m.dport m.space m.buf := sentAs_eq hshort hi
    obtain ⟨hbytes, hlen, hroom⟩ := assembles_frames hspace hlong hfit hframes hs hc
    rw [arrived, hsent]
    exact ⟨hbytes, hlen, hroom⟩

/-- A fragment from the wire, or a timer. -/
def FromWire (src : BitVec 32) (id : BitVec 16) (l : List Sending) : Act → Prop
  | .arrive f _ _ => f ∈ transmit src id l
  | .expire _ => True

/-- END TO END: among at most `2^16` packets that are sent one after another, some are datagrams that
    are cut up. Whichever of their fragments arrive, in whatever order and mixture, and whichever
    timers expire: what the other end receives are datagrams that were sent, each one whole. It
    faults only where it could not copy a fragment. -/
theorem received_sent {as : List Act} (hl : ∀ x ∈ l, Fits x) (hshort : l.length ≤ 2 ^ 16)
    (has : ∀ a ∈ as, FromWire src id l a) :
    (∀ c, run step idle as = some c → ∀ p ∈ c.received, ∃ m, .datagram m ∈ l ∧ p.src = src ∧
      p.dst = m.dst ∧ p.transport = udpHeader m.sport m.dport m.space ++ m.buf ∧
      ((∀ a ∈ as, a.full) → p.proto = 17)) ∧
    (run step idle as = none → StopsAtNull as) := by
  have hproto : ∀ f ∈ {f | f ∈ transmit src id l}, f.proto = Function.const Key 17 f.key := by
    intro f hf
    obtain ⟨i, m, -, x, -, rfl⟩ := mem_transmit hl hf
    rfl
  have hbrings : ∀ a ∈ as, Brings {f | f ∈ transmit src id l} (∀ a ∈ as, a.full) a := by
    intro a ha
    cases a with
    | arrive f alloc timer => exact ⟨has _ ha, fun hfull => hfull _ ha⟩
    | expire timer => trivial
  have hd : Assembles {f | f ∈ transmit src id l} (sentAs id l) := assembles_transmit hl hshort
  refine ⟨?_, stopsAtNull_of_none hd hproto hbrings⟩
  intro c hc p hp
  obtain ⟨k, hk⟩ := (inv_run hd hproto hbrings hc).holds
  obtain ⟨f, hf, hsrc, hdst, hbytes, hpr⟩ := hk.received p hp
  obtain ⟨i, m, hi, x, hx, rfl⟩ := mem_transmit hl hf
  exact ⟨m, List.mem_of_getElem? hi, hsrc, hdst, hbytes.trans (sentAs_eq hshort hi), hpr⟩

/-- Two datagrams and a packet between them; all fragments arrive, the last one first. -/
def twoSends : List Sending :=
  [.datagram ⟨2, 4000, 53, List.replicate 20 6, 8⟩, .other,
    .datagram ⟨3, 4000, 53, List.replicate 9 7, 8⟩]

theorem received_sent_backwards :
    ∃ c, run step idle ((transmit 1 0xFFFF twoSends).reverse.map
        fun f => .arrive f ⟨true, true, true⟩ none) = some c ∧ c.received.length = 2 ∧
      ∀ p ∈ c.received, ∃ m, .datagram m ∈ twoSends ∧ p.src = 1 ∧ p.dst = m.dst ∧
        p.transport = udpHeader m.sport m.dport m.space ++ m.buf ∧
        ((∀ a ∈ (transmit 1 0xFFFF twoSends).reverse.map
          fun f => Act.arrive f ⟨true, true, true⟩ none, a.full) → p.proto = 17) := by
  have hl : ∀ x ∈ twoSends, Fits x := by
    intro x hx
    simp only [twoSends, List.mem_cons, List.not_mem_nil, or_false] at hx
    rcases hx with rfl | rfl | rfl
    · exact ⟨by decide, by decide, by decide⟩
    · trivial
    · exact ⟨by decide, by decide, by decide⟩
  have has : ∀ a ∈ (transmit 1 0xFFFF twoSends).reverse.map
      fun f => Act.arrive f ⟨true, true, true⟩ none, FromWire 1 0xFFFF twoSends a := by
    intro a ha
    obtain ⟨f, hf, rfl⟩ := List.mem_map.mp ha
    exact List.mem_reverse.mp hf
  have hcount : (run step idle ((transmit 1 0xFFFF twoSends).reverse.map
      fun f => .arrive f ⟨true, true, true⟩ none)).map (·.received.length) = some 2 := by
    decide +kernel
  obtain ⟨c, hc, hcount⟩ := Option.map_eq_some_iff.mp hcount
  exact ⟨c, hc, hcount, (received_sent hl (by decide) has).1 c hc⟩

end FdPicotcp.Datagram
