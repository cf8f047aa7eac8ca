import FdPicotcp.Lib.CInt
import FdPicotcp.Lib.Pieces
import FdPicotcp.Lib.Transition

/-! Does the IPv4 reassembly put datagrams together again (`modules/pico_fragments.c`)?

    `pico_ipv4_process_frag` keeps the fragments of one datagram at a time, in a tree by their
    offsets. Once they carry on from 0 to a last one without a gap, `pico_ipv4_fragments_complete`
    copies all that is in the tree into a new frame. A timer empties the tree. -/

namespace FdPicotcp.Fragments
open CInt Pieces Transition

/-- `PICO_SIZE_IP4HDR` -/
def picoSizeIp4hdr : ℕ := 20

/-- `PICO_IPV4_FRAG_MASK`: the offset, in units of 8 bytes. -/
def picoIpv4FragMask : BitVec 16 := 0x1FFF

/-- `PICO_IPV4_MOREFRAG` -/
def picoIpv4Morefrag : BitVec 16 := 0x2000

/-- `IP4_FRAG_OFF` -/
def ip4FragOff (frag : BitVec 16) : ℕ := (frag &&& picoIpv4FragMask).toNat <<< 3

/-- `IP4_FRAG_MORE` -/
def ip4FragMore (frag : BitVec 16) : Bool := frag &&& picoIpv4Morefrag ≠ 0

/-- The two addresses and the identification. -/
@[ext] structure Key where
  src : BitVec 32
  dst : BitVec 32
  id : BitVec 16
  deriving DecidableEq

/-- A fragment as it arrives, with what its header and `pico_frame` say. -/
structure Fragment where
  key : Key
  proto : UInt8
  /-- `hdr->frag`, in host order -/
  frag : BitVec 16
  /-- `f->frag` before the reassembly sets it: 0 in a frame from a device -/
  before : BitVec 16
  transport : List UInt8
  deriving DecidableEq

/-- Where its bytes belong in the datagram. -/
def Fragment.off (f : Fragment) : ℕ := ip4FragOff f.frag

/-- It is not the last one. -/
def Fragment.more (f : Fragment) : Bool := ip4FragMore f.frag

/-- What `pico_transport_receive` gets. -/
structure Packet where
  src : BitVec 32
  dst : BitVec 32
  proto : UInt8
  transport : List UInt8
  deriving DecidableEq

/-- The globals of `pico_fragments.c`; `received` is what the transport layer has been given. -/
structure Reassembly where
  /-- `ipv4_fragments`, in the order of the tree -/
  fragments : List Fragment
  /-- `ipv4_cur_frag_id` -/
  curFragId : BitVec 16
  /-- `ipv4_fragments_timer` -/
  timer : ℕ
  /-- the timers of `pico_frag_expire` that are pending -/
  timers : List ℕ
  received : List Packet

/-- For the copy of the fragment, the node of the tree and the whole datagram. -/
structure Alloc where
  copy : Bool
  node : Bool
  full : Bool

/-- A NULL frame is dereferenced, or the copies run over the end of the buffer. -/
inductive Fault where
  | null
  | overrun

/-- `pico_tree_insert`: the tree keeps what has the offset already. -/
def treeInsert (f : Fragment) : List Fragment → List Fragment
  | [] => [f]
  | g :: gs =>
    if f.off < g.off then f :: g :: gs
    else if f.off = g.off then g :: gs
    else g :: treeInsert f gs

/-- The loop of `pico_fragments_check_complete`, which gives the bookmark after the last fragment. -/
def checkLoop : ℕ → List Fragment → Option ℕ
  | _, [] => none
  | bookmark, cur :: fs =>
    if cur.off ≠ bookmark then none
    else if cur.more then checkLoop (bookmark + cur.transport.length) fs
    else some (bookmark + cur.transport.length)

/-- `pico_ipv4_fragments_complete`: the bytes of the tree in one frame, or nothing without memory for
    it. The buffer has `len` bytes behind the header, as a `uint16_t`. -/
def picoIpv4FragmentsComplete (s : Reassembly) (len : ℕ) (proto : UInt8) (full : Bool) :
    Except Fault Reassembly :=
  match s.fragments with
  | [] => .ok s
  | first :: _ =>
    if ¬ full then .ok s
    else
      let copied := s.fragments.flatMap (·.transport)
      -- the buffer has as many bytes as fit into `uint16_t`, every fragment of the tree is copied
      if toUint16 (picoSizeIp4hdr + len) < picoSizeIp4hdr + copied.length then .error .overrun
      else .ok { s with
        fragments := []
        curFragId := 0
        timer := 0
        timers := s.timers.erase s.timer
        received := s.received ++ [⟨first.key.src, first.key.dst, proto, copied⟩] }

/-- `pico_fragments_check_complete`: the loop decides whether all fragments are there. -/
def picoFragmentsCheckComplete (s : Reassembly) (proto : UInt8) (full : Bool) :
    Except Fault Reassembly :=
  match checkLoop 0 s.fragments with
  | none => .ok s
  | some len => picoIpv4FragmentsComplete s len proto full

/-- The same two hosts; the identification is compared elsewhere. -/
def picoIpv4FragMatch (a b : Fragment) : Bool := a.key.src = b.key.src ∧ a.key.dst = b.key.dst

/-- `pico_timer_add` gives 0 without memory (`none`). -/
def picoIpv4FragTimerOn (s : Reassembly) (timer : Option ℕ) : Reassembly :=
  { s with timer := timer.getD 0, timers := s.timers ++ timer.toList }

/-- The copy goes into the tree. A NULL key is dereferenced at once, unless it finds no node. -/
def insertCopy (s : Reassembly) (f : Fragment) (alloc : Alloc) : Except Fault Reassembly :=
  if alloc.copy then
    .ok { s with fragments := if alloc.node then treeInsert f s.fragments else s.fragments }
  else if s.fragments = [] ∧ ¬ alloc.node then .ok s
  else .error .null

/-- Fragments of another datagram make way. The check is meant for a first fragment, and reads
    `f->frag` before it is set. -/
def makeWay (s : Reassembly) (f : Fragment) : Reassembly :=
  if s.fragments ≠ [] ∧ f.key.id ≠ s.curFragId ∧ ip4FragOff f.before = 0 then
    { s with fragments := [], curFragId := 0 }
  else s

/-- What is done with a fragment that goes into the tree. -/
def insertAndCheck (s : Reassembly) (f : Fragment) (alloc : Alloc) : Except Fault Reassembly := do
  let u ← insertCopy s f alloc
  picoFragmentsCheckComplete u f.proto alloc.full

/-- `pico_ipv4_process_frag`: a fragment of the datagram in the tree goes into it, one that finds the
    tree empty starts a datagram and its timer, any other one is dropped. -/
def picoIpv4ProcessFrag (s : Reassembly) (f : Fragment) (alloc : Alloc) (timer : Option ℕ) :
    Except Fault Reassembly :=
  let s := makeWay s f
  match s.fragments with
  | [] =>
    -- a late arrival
    if s.curFragId ≠ 0 ∧ f.key.id = s.curFragId then .ok s
    else insertAndCheck { picoIpv4FragTimerOn s timer with curFragId := f.key.id } f alloc
  | first :: _ =>
    if picoIpv4FragMatch f first ∧ f.key.id = s.curFragId then insertAndCheck s f alloc
    else picoFragmentsCheckComplete s f.proto alloc.full

/-- `pico_frag_expire` empties the tree and leaves `ipv4_cur_frag_id`. -/
def picoFragExpire (s : Reassembly) : Reassembly := { s with fragments := [] }

/-- A frame with the memory it meets, or a timer. -/
inductive Act where
  | arrive (f : Fragment) (alloc : Alloc) (timer : Option ℕ)
  | expire (timer : ℕ)

/-- `none` is a fault. -/
def step (s : Reassembly) : Act → Option Reassembly
  | .arrive f alloc timer => (picoIpv4ProcessFrag s f alloc timer).toOption
  | .expire timer =>
    some (if timer ∈ s.timers then picoFragExpire { s with timers := s.timers.erase timer } else s)

/-- Before the first fragment. -/
def idle : Reassembly := ⟨[], 0, 0, [], []⟩

/-! The tree -/

/-- The tree is in the order of the offsets, each once. -/
def Sorted (fs : List Fragment) : Prop := fs.Pairwise fun f g => f.off < g.off

variable {s t : Reassembly} {f g : Fragment} {fs : List Fragment} {alloc : Alloc} {a : Act}
  {d : List UInt8} {p : Piece} {ps : List Piece} {k m n len : ℕ}

theorem treeInsert_subset : ∀ g ∈ treeInsert f fs, g = f ∨ g ∈ fs := by
  induction fs with
  | nil => simp [treeInsert]
  | cons g gs ih =>
    rw [treeInsert]
    intro x hx
    split_ifs at hx
    · simpa using hx
    · exact .inr hx
    · rcases List.mem_cons.mp hx with rfl | hx
      · simp
      · rcases ih x hx with rfl | hx
        · exact .inl rfl
        · exact .inr (List.mem_cons_of_mem g hx)

theorem subset_treeInsert : ∀ g ∈ fs, g ∈ treeInsert f fs := by
  induction fs with
  | nil => simp
  | cons g gs ih =>
    rw [treeInsert]
    intro x hx
    split_ifs
    · exact List.mem_cons_of_mem f hx
    · exact hx
    · rcases List.mem_cons.mp hx with rfl | hx
      · simp
      · exact List.mem_cons_of_mem g (ih x hx)

/-- Whatever is there already, the offset is in the tree. -/
theorem exists_treeInsert (f : Fragment) (fs : List Fragment) :
    ∃ g ∈ treeInsert f fs, g.off = f.off := by
  induction fs with
  | nil => exact ⟨f, by simp [treeInsert]⟩
  | cons g gs ih =>
    rw [treeInsert]
    split_ifs with hlt heq
    · exact ⟨f, by simp⟩
    · exact ⟨g, by simp [heq]⟩
    · obtain ⟨x, hx, hoff⟩ := ih
      exact ⟨x, List.mem_cons_of_mem g hx, hoff⟩

theorem Sorted.treeInsert (h : Sorted fs) (f : Fragment) : Sorted (treeInsert f fs) := by
  induction fs with
  | nil => exact List.pairwise_singleton ..
  | cons g gs ih =>
    obtain ⟨hg, hgs⟩ := List.pairwise_cons.mp h
    rw [Fragments.treeInsert]
    split_ifs with hlt heq
    · refine List.pairwise_cons.mpr ⟨?_, h⟩
      intro x hx
      rcases List.mem_cons.mp hx with rfl | hx
      · exact hlt
      · exact hlt.trans (hg x hx)
    · exact h
    · refine List.pairwise_cons.mpr ⟨?_, ih hgs⟩
      intro x hx
      rcases treeInsert_subset x hx with rfl | hx
      · omega
      · exact hg x hx

/-! Fragments of one datagram -/

/-- The fragment brings the piece `p` of the datagram `d`. -/
structure IsPart (d : List UInt8) (p : Piece) (f : Fragment) : Prop where
  off : f.off = p.start
  more : f.more = decide (p.stop < d.length)
  inside : p.stop ≤ d.length
  bytes : f.transport = (d.drop p.start).take p.len

theorem IsPart.length_eq (h : IsPart d p f) : f.transport.length = p.len := by
  have := p.start_add_len
  have := h.inside
  rw [h.bytes, List.length_take, List.length_drop]
  omega

/-- What carries on without a gap is the datagram from there on. -/
theorem checkLoop_bytes {F : Set Piece} (hF : F.Pairwise Separate) (hs : Sorted fs)
    (hparts : ∀ f ∈ fs, ∃ p ∈ F, IsPart d p f) (hc : checkLoop k fs = some len) :
    fs.flatMap (·.transport) = d.drop k ∧ len = d.length := by
  induction fs generalizing k with
  | nil => cases hc
  | cons f fs ih =>
    obtain ⟨hf, hfs⟩ := List.pairwise_cons.mp hs
    obtain ⟨p, hp, hpart⟩ := hparts f (List.mem_cons_self ..)
    have hlen := p.start_add_len
    have hrest : ∀ g ∈ fs, ∃ p ∈ F, IsPart d p g := fun g hg => hparts g (List.mem_cons_of_mem f hg)
    rw [checkLoop] at hc
    by_cases hoff : f.off ≠ k
    · rw [if_pos hoff] at hc
      cases hc
    rw [if_neg hoff] at hc
    have hk : p.start = k := hpart.off.symm.trans (not_not.mp hoff)
    by_cases hmore : f.more
    · rw [if_pos hmore] at hc
      obtain ⟨hbytes, hend⟩ := ih hfs hrest hc
      refine ⟨?_, hend⟩
      rw [List.flatMap_cons, hbytes, hpart.length_eq, hpart.bytes, ← hk, ← List.drop_drop,
        List.take_append_drop]
    · rw [if_neg hmore] at hc
      rw [hpart.more, decide_eq_true_eq, not_lt] at hmore
      have hstop := le_antisymm hpart.inside hmore
      rw [Option.some.injEq, hpart.length_eq] at hc
      -- nothing starts after the last fragment
      have hnil : fs = [] := by
        refine List.eq_nil_iff_forall_not_mem.mpr ?_
        intro g hg
        obtain ⟨q, hq, hqpart⟩ := hrest g hg
        have hlt := hf g hg
        have hqlt := q.lt
        have hqinside := hqpart.inside
        rw [hpart.off, hqpart.off] at hlt
        have hne : p ≠ q := by
          rintro rfl
          omega
        rcases hF hp hq hne with rfl | h | h <;> omega
      refine ⟨?_, by omega⟩
      rw [hnil, List.flatMap_singleton, hpart.bytes, hk, List.take_of_length_le]
      rw [List.length_drop]
      omega

/-- Of the fragments `cut`, those of one key give its datagram, and it fits into a packet. -/
def Assembles (cut : Set Fragment) (d : Key → List UInt8) : Prop :=
  ∀ k fs len, (∀ f ∈ fs, f ∈ cut ∧ f.key = k) → Sorted fs → checkLoop 0 fs = some len →
    fs.flatMap (·.transport) = d k ∧ len = (d k).length ∧ picoSizeIp4hdr + len < 2 ^ 16

/-- A fragment beyond the last one is copied behind the end of the buffer. -/
example : (run step idle [.arrive ⟨⟨1, 2, 7⟩, 17, 2, 0, [4]⟩ ⟨true, true, true⟩ none,
    .arrive ⟨⟨1, 2, 7⟩, 17, 0x2000, 0, List.replicate 8 5⟩ ⟨true, true, true⟩ none,
    .arrive ⟨⟨1, 2, 7⟩, 17, 1, 0, List.replicate 8 6⟩ ⟨true, true, true⟩ none]).isNone := by
  decide

/-! Whatever arrives -/

/-- The tree holds fragments of one key, and what was received is whole. -/
structure Holds (cut : Set Fragment) (d : Key → List UInt8) (proto : Key → UInt8) (B : Prop)
    (s : Reassembly) (k : Key) : Prop where
  sorted : Sorted s.fragments
  id : k.id = s.curFragId
  parts : ∀ f ∈ s.fragments, f ∈ cut ∧ f.key = k
  received : ∀ p ∈ s.received, ∃ f ∈ cut, p.src = f.key.src ∧ p.dst = f.key.dst ∧
    p.transport = d f.key ∧ (B → p.proto = proto f.key)

/-- Beside that, nothing in the tree waits for memory if there is memory for whole datagrams (`B`). -/
structure Inv (cut : Set Fragment) (d : Key → List UInt8) (proto : Key → UInt8) (B : Prop)
    (s : Reassembly) : Prop where
  holds : ∃ k, Holds cut d proto B s k
  pending : B → checkLoop 0 s.fragments = none

variable {cut : Set Fragment} {D : Key → List UInt8} {proto : Key → UInt8} {B : Prop} {q : Key}

theorem inv_empty {cur : BitVec 16} {timer : ℕ} {timers : List ℕ} (h : Holds cut D proto B s q) :
    Inv cut D proto B ⟨[], cur, timer, timers, s.received⟩ :=
  ⟨⟨⟨0, 0, cur⟩, List.Pairwise.nil, rfl, by simp, h.received⟩, fun _ => rfl⟩

/-- The buffer has room for what is copied. -/
theorem picoIpv4FragmentsComplete_ok {first : Fragment} {rest : List Fragment}
    (hs : s.fragments = first :: rest) (hlen : (s.fragments.flatMap (·.transport)).length = len)
    (hfit : picoSizeIp4hdr + len < 2 ^ 16) (pr : UInt8) :
    picoIpv4FragmentsComplete s len pr true = .ok { s with
      fragments := []
      curFragId := 0
      timer := 0
      timers := s.timers.erase s.timer
      received := s.received ++
        [⟨first.key.src, first.key.dst, pr, s.fragments.flatMap (·.transport)⟩] } := by
  have hroom : ¬ toUint16 ((picoSizeIp4hdr : ℤ) + len) <
      picoSizeIp4hdr + (s.fragments.flatMap (·.transport)).length := by
    rw [hlen, toUint16]
    omega
  rw [hs] at hroom ⊢
  rw [picoIpv4FragmentsComplete, hs]
  simp only
  rw [if_neg (by simp), if_neg hroom]

/-- COMPLETE: what is copied is the datagram, and the buffer has room for it. -/
theorem Holds.complete (h : Holds cut D proto B s q) (hd : Assembles cut D) {pr : UInt8} {full : Bool}
    (hc : checkLoop 0 s.fragments = some len) (hp : B → pr = proto q) (hfull : B → full = true) :
    ∃ t, picoIpv4FragmentsComplete s len pr full = .ok t ∧ Inv cut D proto B t := by
  obtain ⟨hbytes, hlen, hfit⟩ := hd q s.fragments len h.parts h.sorted hc
  cases hs : s.fragments with
  | nil =>
    rw [hs] at hc
    cases hc
  | cons first rest =>
    obtain ⟨hcut, hfirst⟩ := h.parts first (by simp [hs])
    cases full with
    | true =>
      rw [picoIpv4FragmentsComplete_ok hs (by rw [hbytes, hlen]) hfit, hbytes]
      refine ⟨_, rfl, ⟨⟨0, 0, 0⟩, List.Pairwise.nil, rfl, by simp, ?_⟩, fun _ => rfl⟩
      intro p hpm
      rcases List.mem_append.mp hpm with hpm | hpm
      · exact h.received p hpm
      · rw [List.mem_singleton.mp hpm, ← hfirst]
        exact ⟨first, hcut, rfl, rfl, rfl, hfirst ▸ hp⟩
    | false =>
      rw [picoIpv4FragmentsComplete, hs]
      exact ⟨s, rfl, ⟨q, h⟩, fun hB => absurd (hfull hB) (by simp)⟩

theorem Holds.checkComplete (h : Holds cut D proto B s q) (hd : Assembles cut D) {pr : UInt8}
    {full : Bool} (hp : B → checkLoop 0 s.fragments ≠ none → pr = proto q)
    (hfull : B → full = true) :
    ∃ t, picoFragmentsCheckComplete s pr full = .ok t ∧ Inv cut D proto B t := by
  rw [picoFragmentsCheckComplete]
  cases hc : checkLoop 0 s.fragments with
  | none => exact ⟨s, rfl, ⟨q, h⟩, fun _ => hc⟩
  | some len => exact h.complete hd hc (fun hB => hp hB (by simp [hc])) hfull

/-- The call leaves a state of `I`, unless `pico_frame_copy` has failed and its NULL is
    dereferenced. -/
def Leaves (I : Reassembly → Prop) (alloc : Alloc) : Except Fault Reassembly → Prop
  | .ok t => I t
  | .error e => e = .null ∧ ¬ alloc.copy

/-- INSERT -/
theorem Holds.insertCopy (h : Holds cut D proto B s q) (hf : f ∈ cut) (hkey : f.key = q) :
    Leaves (Holds cut D proto B · q) alloc (Fragments.insertCopy s f alloc) := by
  rw [Fragments.insertCopy]
  by_cases hcopy : alloc.copy
  · rw [if_pos hcopy]
    cases alloc.node with
    | false => exact h
    | true =>
      refine ⟨h.sorted.treeInsert f, h.id, ?_, h.received⟩
      intro g hg
      rcases treeInsert_subset g hg with rfl | hg
      · exact ⟨hf, hkey⟩
      · exact h.parts g hg
  · rw [if_neg hcopy]
    split
    · exact h
    · exact ⟨rfl, hcopy⟩

theorem Holds.insertAndCheck (h : Holds cut D proto B s q) (hd : Assembles cut D) (hf : f ∈ cut)
    (hkey : f.key = q) (hproto : f.proto = proto q) (hfull : B → alloc.full = true) :
    Leaves (Inv cut D proto B) alloc (Fragments.insertAndCheck s f alloc) := by
  have hinsert : Leaves (Holds cut D proto B · q) alloc (Fragments.insertCopy s f alloc) :=
    h.insertCopy hf hkey
  rw [Fragments.insertAndCheck]
  cases hu : Fragments.insertCopy s f alloc with
  | error e =>
    rw [hu] at hinsert
    exact hinsert
  | ok u =>
    rw [hu] at hinsert
    obtain ⟨t, ht, hinv⟩ := hinsert.checkComplete hd (fun _ _ => hproto) hfull
    have hcheck : (Except.ok u >>= fun u => picoFragmentsCheckComplete u f.proto alloc.full) = .ok t := ht
    rw [hcheck]
    exact hinv

theorem Inv.makeWay (h : Inv cut D proto B s) (f : Fragment) : Inv cut D proto B (makeWay s f) := by
  rw [Fragments.makeWay]
  split
  · obtain ⟨q, hq⟩ := h.holds
    exact inv_empty hq
  · exact h

/-- What may arrive: a fragment of `cut`. -/
def Brings (cut : Set Fragment) (B : Prop) : Act → Prop
  | .arrive f alloc _ => f ∈ cut ∧ (B → alloc.full)
  | .expire _ => True

/-- ARRIVE -/
theorem Inv.arrive (h : Inv cut D proto B s) (hd : Assembles cut D)
    (hproto : ∀ f ∈ cut, f.proto = proto f.key) (hf : f ∈ cut) (hfull : B → alloc.full = true)
    (timer : Option ℕ) : Leaves (Inv cut D proto B) alloc (picoIpv4ProcessFrag s f alloc timer) := by
  have hway := h.makeWay f
  rw [picoIpv4ProcessFrag]
  generalize Fragments.makeWay s f = u at hway ⊢
  obtain ⟨q, hq⟩ := hway.holds
  simp only
  split
  · rename_i hnil
    split
    · exact hway
    · have hstart : Holds cut D proto B
          { picoIpv4FragTimerOn u timer with curFragId := f.key.id } f.key :=
        ⟨hq.sorted, rfl, by simp [picoIpv4FragTimerOn, hnil], hq.received⟩
      exact hstart.insertAndCheck hd hf rfl (hproto f hf) hfull
  · rename_i first rest hcons
    split
    · rename_i hmatch
      obtain ⟨hmatch, hid⟩ := hmatch
      rw [picoIpv4FragMatch, decide_eq_true_eq] at hmatch
      have hfirst : first.key = q := (hq.parts first (by simp [hcons])).2
      have hkey : f.key = q := by
        rw [← hfirst, Key.ext_iff, hmatch.1, hmatch.2, hid, hfirst, hq.id]
        exact ⟨rfl, rfl, rfl⟩
      exact hq.insertAndCheck hd hf hkey (hkey ▸ hproto f hf) hfull
    · obtain ⟨t, ht, hinv⟩ :=
        hq.checkComplete hd (fun hB hne => absurd (hway.pending hB) hne) hfull
      rw [ht]
      exact hinv

/-- STEP -/
theorem Inv.step (h : Inv cut D proto B s) (hd : Assembles cut D)
    (hproto : ∀ f ∈ cut, f.proto = proto f.key) (ha : Brings cut B a) (hs : Fragments.step s a = some t) :
    Inv cut D proto B t := by
  cases a with
  | expire timer =>
    cases hs
    split
    · obtain ⟨q, hq⟩ := h.holds
      have hempty : Inv cut D proto B ⟨[], s.curFragId, s.timer, s.timers.erase timer, s.received⟩ :=
        inv_empty hq
      exact hempty
    · exact h
  | arrive f alloc timer =>
    have hleaves := h.arrive hd hproto ha.1 ha.2 timer
    rw [Fragments.step] at hs
    cases hr : picoIpv4ProcessFrag s f alloc timer with
    | error e =>
      rw [hr] at hs
      cases hs
    | ok u =>
      rw [hr] at hs hleaves
      cases hs
      exact hleaves

/-- A step that is not enabled brings a fragment that could not be copied. -/
theorem Inv.step_none (h : Inv cut D proto B s) (hd : Assembles cut D)
    (hproto : ∀ f ∈ cut, f.proto = proto f.key) (ha : Brings cut B a) (hs : Fragments.step s a = none) :
    ∃ f alloc timer, a = .arrive f alloc timer ∧ picoIpv4ProcessFrag s f alloc timer = .error .null ∧
      ¬ alloc.copy := by
  cases a with
  | expire timer => cases hs
  | arrive f alloc timer =>
    have hleaves := h.arrive hd hproto ha.1 ha.2 timer
    rw [Fragments.step] at hs
    cases hr : picoIpv4ProcessFrag s f alloc timer with
    | ok u =>
      rw [hr] at hs
      cases hs
    | error e =>
      rw [hr] at hleaves
      obtain ⟨rfl, hcopy⟩ := hleaves
      exact ⟨f, alloc, timer, rfl, hr, hcopy⟩

theorem inv_idle : Inv cut D proto B idle :=
  ⟨⟨⟨0, 0, 0⟩, List.Pairwise.nil, rfl, by simp [idle], by simp [idle]⟩, fun _ => rfl⟩

/-- RUN -/
theorem inv_run {as : List Act} (hd : Assembles cut D) (hproto : ∀ f ∈ cut, f.proto = proto f.key)
    (has : ∀ a ∈ as, Brings cut B a) (hr : run Fragments.step idle as = some t) :
    Inv cut D proto B t :=
  run_keeps (C := fun _ a => Brings cut B a) (fun _ _ _ h ha hs => h.step hd hproto ha hs) inv_idle
    (meets_of_forall has) hr

/-- The run stops where the copy of a fragment failed and its NULL is dereferenced. -/
def StopsAtNull (as : List Act) : Prop :=
  ∃ k f alloc timer l s, as = k ++ .arrive f alloc timer :: l ∧ run step idle k = some s ∧
    picoIpv4ProcessFrag s f alloc timer = .error .null ∧ ¬ alloc.copy

theorem stopsAtNull_of_none {as : List Act} (hd : Assembles cut D)
    (hproto : ∀ f ∈ cut, f.proto = proto f.key) (has : ∀ a ∈ as, Brings cut B a)
    (hr : run Fragments.step idle as = none) : StopsAtNull as := by
  obtain ⟨k, a, l, s, rfl, hs, hstuck⟩ := run_stuck hr
  have hinv : Inv cut D proto B s :=
    inv_run hd hproto (fun b hb => has b (List.mem_append_left _ hb)) hs
  obtain ⟨f, alloc, timer, rfl, herror, hcopy⟩ :=
    hinv.step_none hd hproto (has a (by simp)) hstuck
  exact ⟨k, f, alloc, timer, l, s, rfl, hs, herror, hcopy⟩

/-- A fragment of the datagram with its key, which was cut into the pieces `F` somewhere on its way;
    or a timer. -/
def Honest (F : Key → Set Piece) (D : Key → List UInt8) (proto : Key → UInt8) : Act → Prop
  | .arrive f _ _ => f.proto = proto f.key ∧ ∃ p ∈ F f.key, IsPart (D f.key) p f
  | .expire _ => True

/-- There is memory for a whole datagram. -/
def Act.full : Act → Bool
  | .arrive _ alloc _ => alloc.full
  | .expire _ => true

/-- WHOLE: whichever fragments are lost, repeated or overtaken and whichever timers expire, what the
    transport layer gets is a datagram from its first byte to its last. The one fault there is in any
    run is the NULL of a copy that failed. -/
theorem reassembled_whole {F : Key → Set Piece} {D : Key → List UInt8} {proto : Key → UInt8}
    {as : List Act} (hF : ∀ k, (F k).Pairwise Separate)
    (hD : ∀ k, picoSizeIp4hdr + (D k).length < 2 ^ 16) (has : ∀ a ∈ as, Honest F D proto a) :
    (∀ c, run step idle as = some c → ∀ p ∈ c.received, ∃ f alloc timer,
      .arrive f alloc timer ∈ as ∧ p.src = f.key.src ∧ p.dst = f.key.dst ∧ p.transport = D f.key ∧
      ((∀ a ∈ as, a.full) → p.proto = proto f.key)) ∧
    (run step idle as = none → StopsAtNull as) := by
  let cut : Set Fragment := {f | ∃ alloc timer, .arrive f alloc timer ∈ as}
  have hparts : ∀ f ∈ cut, f.proto = proto f.key ∧ ∃ p ∈ F f.key, IsPart (D f.key) p f := by
    rintro f ⟨alloc, timer, hmem⟩
    exact has _ hmem
  have hproto : ∀ f ∈ cut, f.proto = proto f.key := fun f hf => (hparts f hf).1
  have hd : Assembles cut D := by
    intro k fs len hfs hs hc
    have hk : ∀ f ∈ fs, ∃ p ∈ F k, IsPart (D k) p f := by
      intro f hf
      rw [← (hfs f hf).2]
      exact (hparts f (hfs f hf).1).2
    obtain ⟨hbytes, hlen⟩ := checkLoop_bytes (hF k) hs hk hc
    exact ⟨hbytes, hlen, hlen ▸ hD k⟩
  have hbrings : ∀ a ∈ as, Brings cut (∀ a ∈ as, a.full) a := by
    intro a ha
    cases a with
    | arrive f alloc timer => exact ⟨⟨alloc, timer, ha⟩, fun hfull => hfull _ ha⟩
    | expire timer => trivial
  refine ⟨?_, stopsAtNull_of_none hd hproto hbrings⟩
  intro c hc p hp
  obtain ⟨q, hq⟩ := (inv_run hd hproto hbrings hc).holds
  obtain ⟨f, ⟨alloc, timer, hmem⟩, hwhole⟩ := hq.received p hp
  exact ⟨f, alloc, timer, hmem, hwhole⟩

/-- Eleven bytes in two pieces. -/
def eleven : List UInt8 := [1, 2, 3, 4, 5, 6, 7, 8, 9, 10, 11]

/-- Its first 8 bytes. -/
def elevenHead : Fragment := ⟨⟨1, 2, 7⟩, 17, picoIpv4Morefrag, 0, eleven.take 8⟩

/-- Its last 3 bytes. -/
def elevenTail : Fragment := ⟨⟨1, 2, 7⟩, 17, 1, 0, eleven.drop 8⟩

theorem elevenHead_isPart : IsPart eleven (.ofLen 0 7) elevenHead :=
  ⟨by decide, by decide, by decide, by decide⟩

theorem elevenTail_isPart : IsPart eleven (.ofLen 8 2) elevenTail :=
  ⟨by decide, by decide, by decide, by decide⟩

/-- The second piece comes first, is lost with its timer and comes again twice. -/
def tailFirst : List Act :=
  let ok : Alloc := ⟨true, true, true⟩
  [.arrive elevenTail ok (some 3), .expire 3, .arrive { elevenTail with key.id := 8 } ok none,
    .arrive elevenTail ok (some 4), .arrive elevenTail ok none, .arrive elevenHead ok none]

theorem reassembled_whole_tailFirst :
    ∃ c, run step idle tailFirst = some c ∧ c.received = [⟨1, 2, 17, eleven⟩] ∧
      ∀ p ∈ c.received, ∃ f alloc timer, .arrive f alloc timer ∈ tailFirst ∧
        p.src = f.key.src ∧ p.dst = f.key.dst ∧ p.transport = eleven ∧
        ((∀ a ∈ tailFirst, a.full) → p.proto = 17) := by
  have hcut : ∀ _ : Key, ({.ofLen 0 7, .ofLen 8 2} : Set Piece).Pairwise Separate := by
    rintro - p (rfl | rfl) q (rfl | rfl) -
    · exact .inl rfl
    · exact .inr (.inl le_rfl)
    · exact .inr (.inr le_rfl)
    · exact .inl rfl
  have hother : IsPart eleven (.ofLen 8 2) { elevenTail with key.id := 8 } :=
    ⟨by decide, by decide, by decide, by decide⟩
  have hfirst : ∃ p ∈ ({.ofLen 0 7, .ofLen 8 2} : Set Piece), IsPart eleven p elevenHead :=
    ⟨_, .inl rfl, elevenHead_isPart⟩
  have hsecond : ∃ p ∈ ({.ofLen 0 7, .ofLen 8 2} : Set Piece), IsPart eleven p elevenTail :=
    ⟨_, .inr rfl, elevenTail_isPart⟩
  have has : ∀ a ∈ tailFirst,
      Honest (fun _ => {.ofLen 0 7, .ofLen 8 2}) (fun _ => eleven) (fun _ => 17) a := by
    intro a ha
    simp only [tailFirst, List.mem_cons, List.not_mem_nil, or_false] at ha
    rcases ha with rfl | rfl | rfl | rfl | rfl | rfl
    · exact ⟨rfl, hsecond⟩
    · trivial
    · exact ⟨rfl, _, .inr rfl, hother⟩
    · exact ⟨rfl, hsecond⟩
    · exact ⟨rfl, hsecond⟩
    · exact ⟨rfl, hfirst⟩
  have hrun : (run step idle tailFirst).map (·.received) = some [⟨1, 2, 17, eleven⟩] := by
    decide +kernel
  obtain ⟨c, hc, hreceived⟩ := Option.map_eq_some_iff.mp hrun
  exact ⟨c, hc, hreceived, (reassembled_whole hcut (fun _ => by decide) has).1 c hc⟩

/-! A datagram of which every piece arrives -/

/-- Every piece of it is there. -/
def Present (ps : List Piece) (fs : List Fragment) : Prop := ∀ p ∈ ps, ∃ f ∈ fs, f.off = p.start

theorem Present.mono {gs : List Fragment} (h : Present ps fs)
    (hoff : ∀ f ∈ fs, ∃ g ∈ gs, g.off = f.off) : Present ps gs := by
  intro p hp
  obtain ⟨f, hf, hfp⟩ := h p hp
  obtain ⟨g, hg, hgf⟩ := hoff f hf
  exact ⟨g, hg, hgf.trans hfp⟩

theorem checkLoop_complete (hfollow : Follow k ps d.length) (hne : ps ≠ []) (hs : Sorted fs)
    (hparts : ∀ f ∈ fs, ∃ p ∈ ps, IsPart d p f) (hall : Present ps fs) :
    checkLoop k fs = some d.length := by
  induction ps generalizing k fs with
  | nil => exact absurd rfl hne
  | cons p ps ih =>
    have hfirst := hfollow
    obtain ⟨rfl, hrest⟩ := hfollow
    have hplt := p.lt
    have hlen := p.start_add_len
    -- the fragment of the first piece is the first one
    have hhead : ∃ f gs, fs = f :: gs ∧ IsPart d p f := by
      obtain ⟨f, hf, hoff⟩ := hall p (List.mem_cons_self ..)
      cases fs with
      | nil => cases hf
      | cons g gs =>
        obtain ⟨r, hr, hpart⟩ := hparts g (List.mem_cons_self ..)
        have hle : g.off ≤ f.off := by
          rcases List.mem_cons.mp hf with rfl | hf
          · exact le_rfl
          · exact ((List.pairwise_cons.mp hs).1 f hf).le
        have hge := hfirst.start_ge r hr
        have heq : r = p := by
          refine hfirst.start_inj hr (List.mem_cons_self ..) ?_
          have := hpart.off
          omega
        exact ⟨g, gs, rfl, heq ▸ hpart⟩
    obtain ⟨f, gs, rfl, hpart⟩ := hhead
    obtain ⟨hlt, hgs⟩ := List.pairwise_cons.mp hs
    rw [checkLoop, if_neg (not_not.mpr hpart.off), hpart.length_eq, hlen, hpart.more]
    by_cases hend : p.stop < d.length
    · rw [if_pos (decide_eq_true hend)]
      refine ih hrest ?_ hgs ?_ ?_
      · rintro rfl
        exact absurd hrest hend.ne
      · intro g hg
        obtain ⟨r, hr, hrpart⟩ := hparts g (List.mem_cons_of_mem f hg)
        rcases List.mem_cons.mp hr with rfl | hr
        · have hgt := hlt g hg
          rw [hpart.off, hrpart.off] at hgt
          omega
        · exact ⟨r, hr, hrpart⟩
      · intro r hr
        obtain ⟨g, hg, hoff⟩ := hall r (List.mem_cons_of_mem p hr)
        rcases List.mem_cons.mp hg with rfl | hg
        · rw [hpart.off] at hoff
          have := hrest.start_ge r hr
          omega
        · exact ⟨g, hg, hoff⟩
    · have := hrest.le
      rw [if_neg (by simpa using hend), Option.some.injEq]
      omega

theorem checkLoop_present (hfollow : Follow k ps d.length) (hs : Sorted fs)
    (hparts : ∀ f ∈ fs, ∃ p ∈ ps, IsPart d p f) (hc : checkLoop k fs = some len) : Present ps fs := by
  induction ps generalizing k fs with
  | nil =>
    intro p hp
    cases hp
  | cons p ps ih =>
    have hpieces := hfollow
    obtain ⟨rfl, hrest⟩ := hfollow
    have hlen := p.start_add_len
    cases fs with
    | nil => cases hc
    | cons f fs =>
      obtain ⟨hlt, hfs⟩ := List.pairwise_cons.mp hs
      obtain ⟨r, hr, hpart⟩ := hparts f (List.mem_cons_self ..)
      rw [checkLoop] at hc
      by_cases hoff : f.off ≠ p.start
      · rw [if_pos hoff] at hc
        cases hc
      rw [if_neg hoff] at hc
      rw [not_not] at hoff
      obtain rfl : r = p := hpieces.start_inj hr (List.mem_cons_self ..) (hpart.off.symm.trans hoff)
      have hplt := r.lt
      by_cases hmore : f.more
      · rw [if_pos hmore, hpart.length_eq, hlen] at hc
        have hothers : Present ps fs := by
          refine ih hrest hfs ?_ hc
          intro g hg
          obtain ⟨x, hx, hxpart⟩ := hparts g (List.mem_cons_of_mem f hg)
          rcases List.mem_cons.mp hx with rfl | hx
          · have hgt := hlt g hg
            rw [hoff, hxpart.off] at hgt
            omega
          · exact ⟨x, hx, hxpart⟩
        intro x hx
        rcases List.mem_cons.mp hx with rfl | hx
        · exact ⟨f, by simp, hoff⟩
        · obtain ⟨g, hg, hgoff⟩ := hothers x hx
          exact ⟨g, List.mem_cons_of_mem f hg, hgoff⟩
      · rw [hpart.more, decide_eq_true_eq, not_lt] at hmore
        intro x hx
        rcases List.mem_cons.mp hx with rfl | hx
        · exact ⟨f, by simp, hoff⟩
        · have := hrest.start_ge x hx
          have := hrest.stop_le x hx
          have := x.lt
          omega

/-- Fragments of the datagram `d` with the key `q`, in a frame from a device, and memory. -/
def Of (q : Key) (d : List UInt8) (ps : List Piece) : Act → Prop
  | .arrive f alloc _ => f.key = q ∧ ip4FragOff f.before = 0 ∧ (∃ p ∈ ps, IsPart d p f) ∧
      alloc = ⟨true, true, true⟩
  | .expire _ => False

/-- The fragments of a run, in their order. -/
def arrivals (as : List Act) : List Fragment :=
  as.filterMap fun
    | .arrive f _ _ => some f
    | .expire _ => none

/-- No late arrival: another datagram was the last one, or none. -/
def Ready (s : Reassembly) (q : Key) : Prop := s.curFragId ≠ q.id ∨ s.fragments = [] ∧ s.curFragId = 0

/-- The tree holds what was seen of the datagram. -/
structure Gathers (s : Reassembly) (q : Key) (d : List UInt8) (ps : List Piece)
    (seen : List Fragment) : Prop where
  sorted : Sorted s.fragments
  id : s.curFragId = q.id
  key : ∀ f ∈ s.fragments, f.key = q
  parts : ∀ f ∈ s.fragments, ∃ p ∈ ps, IsPart d p f
  sub : ∀ f ∈ s.fragments, f ∈ seen
  sup : ∀ f ∈ seen, ∃ g ∈ s.fragments, g.off = f.off

variable {seen : List Fragment} {timer : Option ℕ}

/-- One more, and the datagram is there or is not. -/
theorem Gathers.insert (h : Gathers s q d ps seen) (hfollow : Follow 0 ps d.length) (hd : d ≠ [])
    (hfit : picoSizeIp4hdr + d.length < 2 ^ 16) (hkey : f.key = q) (hpart : ∃ p ∈ ps, IsPart d p f) :
    ∃ t, insertAndCheck s f ⟨true, true, true⟩ = .ok t ∧
      (Present ps (seen ++ [f]) → t.fragments = [] ∧
        t.received = s.received ++ [⟨q.src, q.dst, f.proto, d⟩]) ∧
      (¬ Present ps (seen ++ [f]) → Gathers t q d ps (seen ++ [f]) ∧ t.received = s.received) := by
  obtain ⟨u, hu, hreceived, hnext⟩ : ∃ u, insertCopy s f ⟨true, true, true⟩ = .ok u ∧
      u.received = s.received ∧ Gathers u q d ps (seen ++ [f]) := by
    refine ⟨{ s with fragments := treeInsert f s.fragments }, rfl, rfl, h.sorted.treeInsert f, h.id,
      ?_, ?_, ?_, ?_⟩
    · intro g hg
      rcases treeInsert_subset g hg with rfl | hg
      · exact hkey
      · exact h.key g hg
    · intro g hg
      rcases treeInsert_subset g hg with rfl | hg
      · exact hpart
      · exact h.parts g hg
    · intro g hg
      rcases treeInsert_subset g hg with rfl | hg
      · simp
      · simp [h.sub g hg]
    · intro g hg
      rcases List.mem_append.mp hg with hg | hg
      · obtain ⟨x, hx, hoff⟩ := h.sup g hg
        exact ⟨x, subset_treeInsert x hx, hoff⟩
      · obtain ⟨x, hx, hoff⟩ := exists_treeInsert f s.fragments
        exact ⟨x, hx, List.mem_singleton.mp hg ▸ hoff⟩
  have hne : ps ≠ [] := by
    rintro rfl
    exact hd (List.length_eq_zero_iff.mp hfollow.symm)
  have hpresent : Present ps (seen ++ [f]) ↔ checkLoop 0 u.fragments = some d.length := by
    constructor
    · intro hp
      exact checkLoop_complete hfollow hne hnext.sorted hnext.parts (hp.mono hnext.sup)
    · intro hc
      refine (checkLoop_present hfollow hnext.sorted hnext.parts hc).mono ?_
      exact fun g hg => ⟨g, hnext.sub g hg, rfl⟩
  have hrun : insertAndCheck s f ⟨true, true, true⟩ = picoFragmentsCheckComplete u f.proto true := by
    rw [insertAndCheck, hu]
    rfl
  rw [hrun, picoFragmentsCheckComplete]
  by_cases hp : Present ps (seen ++ [f])
  · have hc := hpresent.mp hp
    obtain ⟨hbytes, -⟩ := checkLoop_bytes (F := {p | p ∈ ps})
      (fun p hp q hq _ => hfollow.apart.separate hp hq) hnext.sorted hnext.parts hc
    rw [List.drop_zero] at hbytes
    rw [hc]
    cases hs : u.fragments with
    | nil =>
      rw [hs] at hc
      cases hc
    | cons first rest =>
      simp only
      rw [picoIpv4FragmentsComplete_ok hs (by rw [hbytes]) hfit, hbytes,
        hnext.key first (by simp [hs]), hreceived]
      exact ⟨_, rfl, fun _ => ⟨rfl, rfl⟩, fun hnot => absurd hp hnot⟩
  · refine ⟨u, ?_, fun hyes => absurd hyes hp, fun _ => ⟨hnext, hreceived⟩⟩
    cases hc : checkLoop 0 u.fragments with
    | none => rfl
    | some len =>
      refine absurd ?_ hp
      exact (checkLoop_present hfollow hnext.sorted hnext.parts hc).mono
        fun g hg => ⟨g, hnext.sub g hg, rfl⟩

/-- FIRST: it starts a reassembly, and fragments of another datagram make way. -/
theorem Ready.arrive (h : Ready s q) (hkey : f.key = q) (hdev : ip4FragOff f.before = 0)
    (alloc : Alloc) (timer : Option ℕ) :
    ∃ u, u.fragments = [] ∧ u.curFragId = q.id ∧ u.received = s.received ∧
      picoIpv4ProcessFrag s f alloc timer = insertAndCheck u f alloc := by
  obtain ⟨v, hv, hnil, hnew, hreceived⟩ : ∃ v, makeWay s f = v ∧ v.fragments = [] ∧
      ¬ (v.curFragId ≠ 0 ∧ f.key.id = v.curFragId) ∧ v.received = s.received := by
    refine ⟨_, rfl, ?_⟩
    rw [makeWay, hkey]
    split
    · exact ⟨rfl, by simp, rfl⟩
    · rename_i hstay
      rcases h with hne | ⟨hnil, hzero⟩
      · have hnil : s.fragments = [] := by
          by_contra hfull
          exact hstay ⟨hfull, hne.symm, hdev⟩
        exact ⟨hnil, fun hlate => hne hlate.2.symm, rfl⟩
      · exact ⟨hnil, fun hlate => hlate.1 hzero, rfl⟩
  refine ⟨{ picoIpv4FragTimerOn v timer with curFragId := f.key.id }, hnil, by rw [hkey], hreceived, ?_⟩
  rw [picoIpv4ProcessFrag, hv]
  simp only
  rw [hnil]
  simp only
  rw [if_neg hnew]

/-- NEXT: it joins the fragments that are there. -/
theorem Gathers.arrive (h : Gathers s q d ps seen) (hseen : seen ≠ []) (hkey : f.key = q)
    (alloc : Alloc) (timer : Option ℕ) :
    picoIpv4ProcessFrag s f alloc timer = insertAndCheck s f alloc := by
  have hway : makeWay s f = s := by
    rw [makeWay, if_neg]
    rw [hkey, h.id]
    simp
  obtain ⟨g, hg⟩ := List.exists_mem_of_ne_nil seen hseen
  obtain ⟨x, hx, -⟩ := h.sup g hg
  cases hs : s.fragments with
  | nil =>
    rw [hs] at hx
    cases hx
  | cons first rest =>
    have hfirst := h.key first (by simp [hs])
    rw [picoIpv4ProcessFrag, hway]
    simp only
    rw [hs]
    simp only
    rw [if_pos (by simp [picoIpv4FragMatch, hkey, hfirst, h.id])]

/-- Nothing of the datagram was seen yet, or the tree holds it. -/
def Waits (s : Reassembly) (q : Key) (d : List UInt8) (ps : List Piece) (seen : List Fragment) : Prop :=
  seen = [] ∧ Ready s q ∨ seen ≠ [] ∧ Gathers s q d ps seen

/-- STEP -/
theorem Waits.step (h : Waits s q d ps seen) (hfollow : Follow 0 ps d.length) (hd : d ≠ [])
    (hfit : picoSizeIp4hdr + d.length < 2 ^ 16) (ha : Of q d ps (.arrive f alloc timer)) :
    ∃ t, Fragments.step s (.arrive f alloc timer) = some t ∧
      (Present ps (seen ++ [f]) → t.fragments = [] ∧
        t.received = s.received ++ [⟨q.src, q.dst, f.proto, d⟩]) ∧
      (¬ Present ps (seen ++ [f]) → Waits t q d ps (seen ++ [f]) ∧ t.received = s.received) := by
  obtain ⟨hkey, hdev, hpart, rfl⟩ := ha
  obtain ⟨u, hgathers, hreceived, hrun⟩ : ∃ u, Gathers u q d ps seen ∧ u.received = s.received ∧
      picoIpv4ProcessFrag s f ⟨true, true, true⟩ timer = insertAndCheck u f ⟨true, true, true⟩ := by
    rcases h with ⟨rfl, hready⟩ | ⟨hseen, hgathers⟩
    · obtain ⟨u, hnil, hid, hreceived, hrun⟩ := hready.arrive hkey hdev ⟨true, true, true⟩ timer
      refine ⟨u, ⟨?_, hid, ?_, ?_, ?_, ?_⟩, hreceived, hrun⟩
      · rw [Sorted, hnil]
        exact List.Pairwise.nil
      all_goals simp [hnil]
    · exact ⟨s, hgathers, rfl, hgathers.arrive hseen hkey ⟨true, true, true⟩ timer⟩
  obtain ⟨t, ht, hdone, hmore⟩ := hgathers.insert hfollow hd hfit hkey hpart
  rw [hreceived] at hdone hmore
  refine ⟨t, ?_, hdone, ?_⟩
  · rw [Fragments.step, hrun, ht]
    rfl
  · intro hmissing
    obtain ⟨hnext, hsame⟩ := hmore hmissing
    exact ⟨.inr ⟨by simp, hnext⟩, hsame⟩

/-- RUN: while a piece is missing. -/
theorem Waits.run {as : List Act} (h : Waits s q d ps seen) (hfollow : Follow 0 ps d.length)
    (hd : d ≠ []) (hfit : picoSizeIp4hdr + d.length < 2 ^ 16) (has : ∀ a ∈ as, Of q d ps a)
    (hmissing : ¬ Present ps (seen ++ arrivals as)) :
    ∃ t, Transition.run Fragments.step s as = some t ∧ Waits t q d ps (seen ++ arrivals as) ∧
      t.received = s.received := by
  induction as generalizing s seen with
  | nil => exact ⟨s, rfl, by simpa [arrivals] using h, rfl⟩
  | cons a as ih =>
    have ha := has a (List.mem_cons_self ..)
    cases a with
    | expire timer => exact ha.elim
    | arrive f alloc timer =>
      have hsplit : seen ++ arrivals (.arrive f alloc timer :: as) = seen ++ [f] ++ arrivals as := by
        simp [arrivals]
      rw [hsplit] at hmissing ⊢
      obtain ⟨t, ht, -, hmore⟩ := h.step hfollow hd hfit ha
      have hone : ¬ Present ps (seen ++ [f]) := by
        intro hp
        exact hmissing (hp.mono fun g hg => ⟨g, List.mem_append_left _ hg, rfl⟩)
      obtain ⟨hwaits, hsame⟩ := hmore hone
      obtain ⟨u, hu, hlast, hreceived⟩ :=
        ih hwaits (fun b hb => has b (List.mem_cons_of_mem _ hb)) hmissing
      exact ⟨u, run_cons.mpr ⟨t, ht, hu⟩, hlast, hreceived.trans hsame⟩

/-- ANY ORDER: the pieces of a datagram arrive in whatever order, some of them more than once. The
    one that was missing last completes it, and the transport layer gets it. -/
theorem reassembled_any_order {as : List Act} (hfollow : Follow 0 ps d.length) (hd : d ≠ [])
    (hfit : picoSizeIp4hdr + d.length < 2 ^ 16) (hready : Ready s q)
    (has : ∀ a ∈ as ++ [.arrive f alloc timer], Of q d ps a) (hmissing : ¬ Present ps (arrivals as))
    (hall : Present ps (arrivals as ++ [f])) :
    ∃ c, run step s (as ++ [.arrive f alloc timer]) = some c ∧ c.fragments = [] ∧
      c.received = s.received ++ [⟨q.src, q.dst, f.proto, d⟩] := by
  have hstart : Waits s q d ps [] := .inl ⟨rfl, hready⟩
  obtain ⟨t, ht, hwaits, hreceived⟩ := hstart.run hfollow hd hfit
    (fun a ha => has a (List.mem_append_left _ ha)) hmissing
  obtain ⟨c, hc, hdone, -⟩ := hwaits.step hfollow hd hfit
    (has _ (List.mem_append_right as (List.mem_singleton_self _)))
  obtain ⟨hempty, hlast⟩ := hdone hall
  exact ⟨c, run_append.mpr ⟨t, ht, run_cons.mpr ⟨c, hc, rfl⟩⟩, hempty, by rw [hlast, hreceived]⟩

theorem reassembled_any_order_tailFirst :
    ∃ c, run step idle ([.arrive elevenTail ⟨true, true, true⟩ (some 4),
        .arrive elevenTail ⟨true, true, true⟩ none] ++
        [.arrive elevenHead ⟨true, true, true⟩ none]) = some c ∧
      c.fragments = [] ∧ c.received = idle.received ++ [⟨1, 2, 17, eleven⟩] := by
  have hhead : ∃ p ∈ [Piece.ofLen 0 7, .ofLen 8 2], IsPart eleven p elevenHead :=
    ⟨_, by simp, elevenHead_isPart⟩
  have htail : ∃ p ∈ [Piece.ofLen 0 7, .ofLen 8 2], IsPart eleven p elevenTail :=
    ⟨_, by simp, elevenTail_isPart⟩
  have hzero : ip4FragOff 0 = 0 := by decide
  have hfollow : Follow 0 [.ofLen 0 7, .ofLen 8 2] eleven.length := ⟨rfl, rfl, rfl⟩
  have hready : Ready idle ⟨1, 2, 7⟩ := .inr ⟨rfl, rfl⟩
  refine reassembled_any_order hfollow (by decide) (by decide) hready ?_ ?_ ?_
  · intro a ha
    simp only [List.cons_append, List.nil_append, List.mem_cons, List.not_mem_nil, or_false] at ha
    rcases ha with rfl | rfl | rfl
    · exact ⟨rfl, hzero, htail, rfl⟩
    · exact ⟨rfl, hzero, htail, rfl⟩
    · exact ⟨rfl, hzero, hhead, rfl⟩
  · intro h
    obtain ⟨f, hf, hoff⟩ := h (.ofLen 0 7) (by simp)
    obtain rfl : f = elevenTail := by simpa [arrivals] using hf
    exact absurd hoff (by decide)
  · intro p hp
    simp only [List.mem_cons, List.not_mem_nil, or_false] at hp
    rcases hp with rfl | rfl
    · exact ⟨elevenHead, by simp [arrivals], elevenHead_isPart.off⟩
    · exact ⟨elevenTail, by simp [arrivals], elevenTail_isPart.off⟩

/-! What was received -/

theorem checkComplete_received {pr : UInt8} {full : Bool}
    (h : picoFragmentsCheckComplete s pr full = .ok t) : s.received <+: t.received := by
  rw [picoFragmentsCheckComplete] at h
  split at h
  · cases h
    exact List.prefix_refl _
  · rw [picoIpv4FragmentsComplete] at h
    split at h
    · cases h
      exact List.prefix_refl _
    · split at h
      · cases h
        exact List.prefix_refl _
      · simp only at h
        split at h
        · cases h
        · cases h
          exact List.prefix_append ..

theorem insertAndCheck_received (h : insertAndCheck s f alloc = .ok t) : s.received <+: t.received := by
  rw [insertAndCheck, insertCopy] at h
  split at h
  · have hcheck : picoFragmentsCheckComplete { s with
        fragments := if alloc.node then treeInsert f s.fragments else s.fragments } f.proto alloc.full =
          .ok t := h
    have hprefix := checkComplete_received hcheck
    exact hprefix
  · split at h
    · have hcheck : picoFragmentsCheckComplete s f.proto alloc.full = .ok t := h
      exact checkComplete_received hcheck
    · cases h

/-- A packet that was received stays received. -/
theorem received_step (hs : Fragments.step s a = some t) : s.received <+: t.received := by
  cases a with
  | expire timer =>
    cases hs
    split <;> exact List.prefix_refl _
  | arrive f alloc timer =>
    have hway : (makeWay s f).received = s.received := by
      rw [makeWay]
      split <;> rfl
    rw [Fragments.step] at hs
    cases hrun : picoIpv4ProcessFrag s f alloc timer with
    | error e =>
      rw [hrun] at hs
      cases hs
    | ok u =>
      rw [hrun] at hs
      cases hs
      rw [picoIpv4ProcessFrag] at hrun
      rw [← hway]
      generalize makeWay s f = v at hrun
      simp only at hrun
      split at hrun
      · split at hrun
        · cases hrun
          exact List.prefix_refl _
        · exact insertAndCheck_received (s := { picoIpv4FragTimerOn v timer with curFragId := _ }) hrun
      · split at hrun
        · exact insertAndCheck_received hrun
        · exact checkComplete_received hrun

end FdPicotcp.Fragments
