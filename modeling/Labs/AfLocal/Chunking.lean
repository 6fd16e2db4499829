import Labs.AfLocal.Framing

/-!
# Where the cuts fall

`onData` tests for overflow before it takes any frame out of the buffer: what counts is the
open frame *plus the whole chunk*, newlines in the chunk included. Where a chunk starts more
than 256 bytes into a frame, a full chunk behind it overflows `frame_buf` even if the frame
ends with the chunk's first byte. So the cuts decide whether a client is dropped, and when.

`CutSafe` is the condition on the stream under which they do not: wherever a cut could
overflow the buffer, that frame or an earlier one is longer than the buffer anyway, so that
every cutting drops the client at it.

## How two cuttings are compared

The replies are those to the accepted bytes, so two cuttings agree if they accept the same frames.
Each drops the client at an overflow point, or not at all (`overflow_location`). On a cut-safe
stream such a point lies in a long frame, or behind one, and no cutting gets past that
(`overflows_of_longFrame`); so both stop inside the same frame, and the bytes of a frame that is not
complete have no reply.

For the other direction two cuttings have to be found that differ. One is always the same: byte by
byte, where nothing but a full buffer drops the client (`bytewise_location`). The other one is byte
by byte up to an overflow point, and then a chunk as large as it can be
(`exists_overflowing_chunk`). If the stream is not cut-safe, the first gets further than the second.

`AllFit` is what a client would understand by a proper stream. Such a stream can still be cut so
that it is dropped, unless it is cut-safe: that is the case in which the condition says that no
cutting drops it.
-/

namespace Labs
namespace AfLocal

open Lib

/-- What a client sees of a connection: the replies, and whether it was dropped. -/
def outcome (cs : List Chunk) : List (List UInt8) × Ending :=
  ((serveConn .fresh cs).sent, (serveConn .fresh cs).ending)

/-- Frame number `n` of the stream, or one before it, does not fit into `frame_buf`: at some
    point the buffer is full and the stream goes on. -/
def LongFrame (s : List UInt8) (n : Nat) : Prop :=
  ∃ p b r, s = p ++ b :: r ∧ FRAME_BUF_SIZ ≤ (leftover NEWLINE p).length ∧ p.count NEWLINE ≤ n

/-- A chunk received between `p` and `r` can overflow the buffer. -/
def OverflowPoint (p r : List UInt8) : Prop :=
  FRAME_BUF_SIZ < (leftover NEWLINE p).length + min BUF_SIZ r.length

def CutSafe (s : List UInt8) : Prop :=
  ∀ p r, s = p ++ r → OverflowPoint p r → LongFrame s (p.count NEWLINE)

/-- Every frame of the stream, its newline included, fits into `frame_buf`. -/
def AllFit (s : List UInt8) : Prop :=
  (∀ f ∈ frames NEWLINE s, f.length + 1 ≤ FRAME_BUF_SIZ) ∧
    (leftover NEWLINE s).length ≤ FRAME_BUF_SIZ

/-! ## 1. The outcome is read off the accepted bytes -/

theorem outcome_of_overflows {cs : List Chunk} (h : Overflows [] cs) :
    outcome cs = (receipts (accepted [] cs), .dropped) := by
  have hs : ServedFrom [] cs (serveConn .fresh cs) := serveConn_spec AtRecv.fresh
  exact Prod.ext hs.sent (hs.dropped h)

theorem outcome_of_not_overflows {cs : List Chunk} (h : ¬ Overflows [] cs) :
    outcome cs = (receipts (stream cs), .disconnected) := by
  have hs : ServedFrom [] cs (serveConn .fresh cs) := serveConn_spec AtRecv.fresh
  have hsent := hs.sent
  rw [accepted_of_not_overflows h] at hsent
  exact Prod.ext hsent (hs.disconnected h).1

theorem length_receipts (s : List UInt8) : (receipts s).length = s.count NEWLINE := by
  rw [receipts, List.length_mapIdx, length_frames]

/-- Two prefixes of one stream with as many newlines have the same replies. -/
theorem receipts_prefix_congr {s p q r t : List UInt8} (hp : s = p ++ r) (hq : s = q ++ t)
    (hc : p.count NEWLINE = q.count NEWLINE) : receipts p = receipts q := by
  have htake : ∀ {a b : List UInt8}, s = a ++ b →
      frames NEWLINE a = (frames NEWLINE s).take (a.count NEWLINE) := by
    intro a b hab
    rw [hab, frames_append, List.take_left' (length_frames a)]
  rw [receipts, receipts, htake hp, htake hq, hc]

/-! ## 2. Where an overflow happens -/

theorem accepted_split : ∀ (cs : List Chunk) (rcvd : List UInt8),
    ∃ t r, accepted rcvd cs = rcvd ++ t ∧ stream cs = t ++ r
  | [], rcvd => ⟨[], [], by simp [accepted], rfl⟩
  | c :: cs, rcvd => by
    rw [accepted]
    split
    · exact ⟨[], stream (c :: cs), by simp, rfl⟩
    · obtain ⟨t, r, ht, hr⟩ := accepted_split cs (rcvd ++ c.bytes)
      refine ⟨c.bytes ++ t, r, by rw [ht, List.append_assoc], ?_⟩
      rw [List.append_assoc, ← hr]
      rfl

theorem overflow_location : ∀ {cs : List Chunk} {rcvd : List UInt8}, Overflows rcvd cs →
    ∃ r, rcvd ++ stream cs = accepted rcvd cs ++ r ∧ OverflowPoint (accepted rcvd cs) r := by
  intro cs
  induction cs with
  | nil => exact fun h => h.elim
  | cons c cs ih =>
    intro rcvd h
    by_cases hbig : FRAME_BUF_SIZ < (leftover NEWLINE rcvd).length + c.bytes.length
    · rw [accepted, if_pos hbig]
      refine ⟨stream (c :: cs), rfl, ?_⟩
      have hfit := c.fits
      have hlen : c.bytes.length ≤ (stream (c :: cs)).length := by
        simp only [stream, List.map_cons, List.flatten_cons, List.length_append]
        exact Nat.le_add_right _ _
      unfold OverflowPoint
      omega
    · rw [accepted, if_neg hbig]
      obtain ⟨r, hr, hpoint⟩ := ih (h.resolve_left hbig)
      refine ⟨r, ?_, hpoint⟩
      rw [← hr]
      simp [stream]

/-- The buffer is never full before a byte that is accepted. -/
theorem accepted_fits : ∀ {cs : List Chunk} {rcvd p r : List UInt8} {b : UInt8},
    rcvd.length ≤ p.length → accepted rcvd cs = p ++ b :: r →
      (leftover NEWLINE p).length < FRAME_BUF_SIZ := by
  intro cs
  induction cs with
  | nil =>
    intro rcvd p r b hle h
    have := congrArg List.length h
    simp only [accepted, List.length_append, List.length_cons] at this
    omega
  | cons c cs ih =>
    intro rcvd p r b hle h
    rw [accepted] at h
    split at h
    · have := congrArg List.length h
      simp only [List.length_append, List.length_cons] at this
      omega
    · rename_i hfit
      by_cases hlong : (rcvd ++ c.bytes).length ≤ p.length
      · exact ih hlong h
      · -- `p` ends inside the chunk, which fits as a whole.
        obtain ⟨x, hx⟩ : ∃ x, rcvd ++ x = p := by
          have hpre : rcvd <+: p ++ b :: r := by
            obtain ⟨t, _, ht, _⟩ := accepted_split cs (rcvd ++ c.bytes)
            exact ⟨c.bytes ++ t, by rw [← h, ht, List.append_assoc]⟩
          exact List.prefix_of_prefix_length_le hpre (List.prefix_append _ _) hle
        have hbound := length_leftover_append_le NEWLINE rcvd x
        rw [hx] at hbound
        have hlen := congrArg List.length hx
        simp only [List.length_append] at hlen hlong
        omega

/-- A frame longer than the buffer gets no cutting past it. -/
theorem overflows_of_longFrame {cs : List Chunk} {n : Nat} (h : LongFrame (stream cs) n) :
    Overflows [] cs := by
  obtain ⟨p, b, r, hs, hlong, -⟩ := h
  by_contra hno
  have hacc : accepted [] cs = p ++ b :: r := by
    rw [accepted_of_not_overflows hno, ← hs]
    rfl
  exact absurd (accepted_fits (Nat.zero_le _) hacc) (Nat.not_lt.mpr hlong)

theorem accepted_count_le {cs : List Chunk} {p r : List UInt8} {b : UInt8}
    (hs : stream cs = p ++ b :: r) (hlong : FRAME_BUF_SIZ ≤ (leftover NEWLINE p).length) :
    (accepted [] cs).count NEWLINE ≤ p.count NEWLINE := by
  obtain ⟨t, r', ht, hr⟩ := accepted_split cs []
  rw [List.nil_append] at ht
  have hpre : accepted [] cs <+: p ++ b :: r := ⟨r', by rw [ht, ← hr, hs]⟩
  by_cases hle : (accepted [] cs).length ≤ p.length
  · have : accepted [] cs <+: p :=
      List.prefix_of_prefix_length_le hpre (List.prefix_append _ _) hle
    exact this.sublist.count_le _
  · -- Otherwise the byte after `p` was accepted with the buffer full.
    have hp : p ++ [b] <+: accepted [] cs := by
      refine List.prefix_of_prefix_length_le ⟨r, by simp⟩ hpre ?_
      rw [List.length_append, List.length_singleton]
      omega
    obtain ⟨x, hx⟩ := hp
    have hfull : accepted [] cs = p ++ b :: x := by
      rw [← hx]
      simp
    have := accepted_fits (Nat.zero_le _) hfull
    omega

/-! ## 3. One byte at a time -/

def bytewise (s : List UInt8) : List Chunk :=
  s.map fun b => ⟨[b], Nat.one_pos, (by decide : 1 ≤ BUF_SIZ)⟩

theorem stream_append (cs ds : List Chunk) : stream (cs ++ ds) = stream cs ++ stream ds := by
  simp [stream]

theorem stream_bytewise (s : List UInt8) : stream (bytewise s) = s := by
  induction s with
  | nil => rfl
  | cons b s ih =>
    have : stream (bytewise (b :: s)) = [b] ++ stream (bytewise s) := rfl
    rw [this, ih]
    rfl

/-- Received byte by byte, a client is only dropped by a byte that finds the buffer full. -/
theorem bytewise_location : ∀ {t rcvd : List UInt8}, Overflows rcvd (bytewise t) →
    ∃ b r, rcvd ++ t = accepted rcvd (bytewise t) ++ b :: r ∧
      FRAME_BUF_SIZ ≤ (leftover NEWLINE (accepted rcvd (bytewise t))).length := by
  intro t
  induction t with
  | nil => exact fun h => h.elim
  | cons b t ih =>
    intro rcvd h
    by_cases hbig : FRAME_BUF_SIZ < (leftover NEWLINE rcvd).length + [b].length
    · have hacc : accepted rcvd (bytewise (b :: t)) = rcvd := if_pos hbig
      rw [hacc]
      exact ⟨b, t, rfl, Nat.lt_succ_iff.mp hbig⟩
    · have hacc : accepted rcvd (bytewise (b :: t)) = accepted (rcvd ++ [b]) (bytewise t) :=
        if_neg hbig
      rw [hacc]
      obtain ⟨b', r, hr, hlong⟩ := ih (h.resolve_left hbig)
      exact ⟨b', r, by rw [← hr]; simp, hlong⟩

/-- Up to a long frame, receiving byte by byte reaches every point of the stream. -/
theorem bytewise_reaches : ∀ {t rcvd : List UInt8} {cs : List Chunk},
    (∀ p b r, t = p ++ b :: r → (leftover NEWLINE (rcvd ++ p)).length < FRAME_BUF_SIZ) →
      accepted rcvd (bytewise t ++ cs) = accepted (rcvd ++ t) cs ∧
        (Overflows rcvd (bytewise t ++ cs) ↔ Overflows (rcvd ++ t) cs) := by
  intro t
  induction t with
  | nil =>
    intro rcvd cs _
    rw [List.append_nil]
    exact ⟨rfl, Iff.rfl⟩
  | cons b t ih =>
    intro rcvd cs h
    have hfit : ¬ FRAME_BUF_SIZ < (leftover NEWLINE rcvd).length + [b].length := by
      have := h [] b t rfl
      rw [List.append_nil] at this
      rw [List.length_singleton]
      omega
    have hacc : accepted rcvd (bytewise (b :: t) ++ cs)
        = accepted (rcvd ++ [b]) (bytewise t ++ cs) := if_neg hfit
    have hov : Overflows rcvd (bytewise (b :: t) ++ cs)
        ↔ Overflows (rcvd ++ [b]) (bytewise t ++ cs) :=
      ⟨fun ho => ho.resolve_left hfit, Or.inr⟩
    obtain ⟨hacc', hov'⟩ := @ih (rcvd ++ [b]) cs fun p b' r hp => by
      have := h (b :: p) b' r (by rw [hp]; rfl)
      simpa using this
    rw [hacc, hov, hacc', hov', List.append_assoc]
    exact ⟨rfl, Iff.rfl⟩

/-! ## 4. Cut-safe streams -/

theorem outcome_eq_of_cutSafe {s : List UInt8} (h : CutSafe s) {c₁ c₂ : List Chunk}
    (h₁ : stream c₁ = s) (h₂ : stream c₂ = s) : outcome c₁ = outcome c₂ := by
  by_cases hlong : ∃ n, LongFrame s n
  · -- Both cuttings are dropped in the first frame that is too long.
    obtain ⟨n, hn⟩ := hlong
    have hdrop : ∀ {c : List Chunk}, stream c = s → Overflows [] c := by
      intro c hc
      exact overflows_of_longFrame (hc.symm ▸ hn)
    have hsafe : ∀ {c : List Chunk}, stream c = s →
        LongFrame s ((accepted [] c).count NEWLINE) ∧ ∃ r, s = accepted [] c ++ r := by
      intro c hc
      obtain ⟨r, hr, hpoint⟩ := overflow_location (hdrop hc)
      rw [List.nil_append, hc] at hr
      exact ⟨h _ r hr hpoint, r, hr⟩
    have hle : ∀ {c d : List Chunk}, stream c = s → stream d = s →
        (accepted [] c).count NEWLINE ≤ (accepted [] d).count NEWLINE := by
      intro c d hc hd
      obtain ⟨⟨p, b, r, hp, hfull, hcount⟩, -⟩ := hsafe hd
      exact Nat.le_trans (accepted_count_le (hc.trans hp) hfull) hcount
    obtain ⟨-, r₁, hr₁⟩ := hsafe h₁
    obtain ⟨-, r₂, hr₂⟩ := hsafe h₂
    rw [outcome_of_overflows (hdrop h₁), outcome_of_overflows (hdrop h₂),
      receipts_prefix_congr hr₁ hr₂ (Nat.le_antisymm (hle h₁ h₂) (hle h₂ h₁))]
  · have hkeep : ∀ {c : List Chunk}, stream c = s → ¬ Overflows [] c := by
      intro c hc ho
      obtain ⟨r, hr, hpoint⟩ := overflow_location ho
      rw [List.nil_append, hc] at hr
      exact hlong ⟨_, h _ r hr hpoint⟩
    rw [outcome_of_not_overflows (hkeep h₁), outcome_of_not_overflows (hkeep h₂), h₁, h₂]

theorem full_before_over {p : List UInt8} (h : FRAME_BUF_SIZ < (leftover NEWLINE p).length) :
    ∃ q b, p = q ++ [b] ∧ FRAME_BUF_SIZ ≤ (leftover NEWLINE q).length := by
  rcases List.eq_nil_or_concat' p with rfl | ⟨q, b, rfl⟩
  · exact absurd h (by simp)
  · have := length_leftover_append_le NEWLINE q [b]
    rw [List.length_singleton] at this
    exact ⟨q, b, rfl, by omega⟩

/-- The chunk that overflows the buffer at an overflow point. -/
theorem exists_overflowing_chunk {p r : List UInt8} (hp : (leftover NEWLINE p).length ≤ FRAME_BUF_SIZ)
    (h : OverflowPoint p r) : ∃ (c : Chunk) (t : List UInt8), r = c.bytes ++ t ∧
      FRAME_BUF_SIZ < (leftover NEWLINE p).length + c.bytes.length := by
  have hlen : (r.take BUF_SIZ).length = min BUF_SIZ r.length := List.length_take
  unfold OverflowPoint at h
  refine ⟨⟨r.take BUF_SIZ, by omega, by omega⟩, r.drop BUF_SIZ, ?_, by
    show _ < _ + (r.take BUF_SIZ).length
    omega⟩
  exact (List.take_append_drop _ _).symm

theorem cutSafe_of_outcome_eq {s : List UInt8}
    (h : ∀ c₁ c₂, stream c₁ = s → stream c₂ = s → outcome c₁ = outcome c₂) : CutSafe s := by
  intro p r hs hpoint
  by_contra hlong
  have hfit : ∀ q b t, s = q ++ b :: t → q.count NEWLINE ≤ p.count NEWLINE →
      (leftover NEWLINE q).length < FRAME_BUF_SIZ :=
    fun q b t hq hle => Nat.not_le.mp fun hge => hlong ⟨q, b, t, hq, hge, hle⟩
  have hp : (leftover NEWLINE p).length ≤ FRAME_BUF_SIZ := by
    by_contra hlt
    obtain ⟨q, b, rfl, hfull⟩ := full_before_over (Nat.not_le.mp hlt)
    have := hfit q b r (by rw [hs, List.append_assoc]; rfl)
      ((List.sublist_append_left q [b]).count_le NEWLINE)
    omega
  obtain ⟨c, t, hr, hover⟩ := exists_overflowing_chunk hp hpoint
  -- One cutting arrives at `p` byte by byte and then receives `c`; the other never does.
  obtain ⟨hacc, hov⟩ := @bytewise_reaches p [] (c :: bytewise t) fun q b x hq => hfit q b (x ++ r) (by rw [hs, hq]; simp)
      ((by rw [hq]; exact List.sublist_append_left q _ : q.Sublist p).count_le NEWLINE)
  have hdrop : Overflows [] (bytewise p ++ c :: bytewise t) := hov.mpr (Or.inl hover)
  have hend : accepted [] (bytewise p ++ c :: bytewise t) = p := by
    rw [hacc]
    exact if_pos hover
  have hcut : stream (bytewise p ++ c :: bytewise t) = s := by
    have : stream (c :: bytewise t) = c.bytes ++ stream (bytewise t) := rfl
    rw [stream_append, stream_bytewise, this, stream_bytewise, ← hr, hs]
  have heq := h _ _ hcut (stream_bytewise s)
  rw [outcome_of_overflows hdrop, hend] at heq
  by_cases ho : Overflows [] (bytewise s)
  · rw [outcome_of_overflows ho] at heq
    have hcount := congrArg (fun o : List (List UInt8) × Ending => o.1.length) heq
    simp only [length_receipts] at hcount
    obtain ⟨b, x, hx, hfull⟩ := bytewise_location ho
    have := hfit _ b x hx (Nat.le_of_eq hcount.symm)
    omega
  · rw [outcome_of_not_overflows ho] at heq
    exact Ending.noConfusion (congrArg Prod.snd heq)

theorem longFrame_free_of_allFit {s : List UInt8} (h : AllFit s) (n : Nat) : ¬ LongFrame s n := by
  rintro ⟨p, b, r, rfl, hlong, -⟩
  rcases leftover_prefix NEWLINE p (b :: r) with ⟨f, hf, hpre⟩ | hleft
  · have h₁ := h.1 f hf
    have h₂ := hpre.length_le
    omega
  · have h₂ := h.2
    rw [hleft, List.length_append, List.length_cons] at h₂
    omega

/-- **The cuts make no difference exactly on the cut-safe streams**; on a stream whose frames
    all fit, being cut-safe is being dropped by no cutting. -/
theorem chunking_independent_iff (s : List UInt8) :
    ((∀ c₁ c₂, stream c₁ = s → stream c₂ = s → outcome c₁ = outcome c₂) ↔ CutSafe s) ∧
      (AllFit s → ((∀ c, stream c = s → (serveConn .fresh c).ending ≠ .dropped) ↔ CutSafe s)) := by
  refine ⟨⟨cutSafe_of_outcome_eq, fun h _ _ => outcome_eq_of_cutSafe h⟩, fun hfit => ⟨?_, ?_⟩⟩
  · intro h
    refine cutSafe_of_outcome_eq fun c₁ c₂ h₁ h₂ => ?_
    have hkeep : ∀ {c : List Chunk}, stream c = s → ¬ Overflows [] c := by
      intro c hc ho
      exact h c hc (congrArg Prod.snd (outcome_of_overflows ho))
    rw [outcome_of_not_overflows (hkeep h₁), outcome_of_not_overflows (hkeep h₂), h₁, h₂]
  · intro h c hc hd
    have ho : Overflows [] c := by
      by_contra hno
      have := congrArg Prod.snd (outcome_of_not_overflows hno)
      exact absurd (hd.symm.trans this) Ending.noConfusion
    obtain ⟨r, hr, hpoint⟩ := overflow_location ho
    rw [List.nil_append, hc] at hr
    exact longFrame_free_of_allFit hfit _ (h _ r hr hpoint)

theorem bytewise_kept {s : List UInt8} (h : AllFit s) : ¬ Overflows [] (bytewise s) := by
  intro ho
  obtain ⟨b, r, hs, hfull⟩ := bytewise_location ho
  exact longFrame_free_of_allFit h _ ⟨_, b, r, hs, hfull, Nat.le_refl _⟩

/-! ### A client whose frames fit, dropped

A frame of 300 bytes and one of 255, each with its newline. Received byte by byte both are
answered; received in four chunks the client is dropped at the newline of the first. -/

def chunkOf (n : Nat) (b : UInt8) (h : 0 < n ∧ n ≤ BUF_SIZ) : Chunk :=
  ⟨List.replicate n b, by rw [List.length_replicate]; exact h.1,
    by rw [List.length_replicate]; exact h.2⟩

/-- The newline of the first frame, and all of the second but its newline. -/
def straddling : Chunk :=
  ⟨NEWLINE :: List.replicate 255 66, by rw [List.length_cons, List.length_replicate]; decide,
    by rw [List.length_cons, List.length_replicate]; decide⟩

def clumsyCut : List Chunk :=
  [chunkOf 256 65 (by decide), chunkOf 44 65 (by decide), straddling,
    chunkOf 1 NEWLINE (by decide)]

theorem newline_free {b : UInt8} (hb : NEWLINE ≠ b) (n : Nat) : NEWLINE ∉ List.replicate n b :=
  fun h => hb (List.eq_of_mem_replicate h)

/-- What has been received when the first newline arrives. -/
theorem received_300 : ([] ++ (chunkOf 256 65 (by decide)).bytes) ++
    (chunkOf 44 65 (by decide)).bytes = List.replicate 300 65 := by
  rw [List.nil_append]
  exact List.replicate_append_replicate

theorem stream_clumsyCut : stream clumsyCut =
    List.replicate 300 65 ++ NEWLINE :: (List.replicate 255 66 ++ NEWLINE :: []) := by
  rw [← received_300]
  simp only [stream, clumsyCut, chunkOf, straddling, List.map_cons, List.map_nil,
    List.flatten_cons, List.flatten_nil, List.nil_append, List.append_assoc, List.append_nil,
    List.cons_append]
  rfl

theorem allFit_clumsyCut : AllFit (stream clumsyCut) := by
  have hA : NEWLINE ∉ List.replicate 300 (65 : UInt8) := newline_free (by decide) 300
  have hB : NEWLINE ∉ List.replicate 255 (66 : UInt8) := newline_free (by decide) 255
  rw [stream_clumsyCut, AllFit, frames_cons_frame hA, frames_cons_frame hB,
    leftover_cons_frame hA, leftover_cons_frame hB]
  refine ⟨fun f hf => ?_, Nat.zero_le _⟩
  rcases List.mem_cons.mp hf with rfl | hf
  · rw [List.length_replicate]
    decide
  · rw [List.mem_singleton.mp hf, List.length_replicate]
    decide

theorem clumsyCut_overflows : Overflows [] clumsyCut := by
  refine Or.inr (Or.inr (Or.inl ?_))
  rw [received_300, leftover_of_not_mem (newline_free (by decide) 300), straddling,
    List.length_cons, List.length_replicate, List.length_replicate]
  decide

theorem clumsyCut_dropped :
    AllFit (stream clumsyCut) ∧ stream (bytewise (stream clumsyCut)) = stream clumsyCut ∧
      (outcome clumsyCut).2 = .dropped ∧
      (outcome (bytewise (stream clumsyCut))).2 = .disconnected ∧
      outcome clumsyCut ≠ outcome (bytewise (stream clumsyCut)) := by
  have hdrop := outcome_of_overflows clumsyCut_overflows
  have hkeep := outcome_of_not_overflows (bytewise_kept allFit_clumsyCut)
  refine ⟨allFit_clumsyCut, stream_bytewise _, by rw [hdrop], by rw [hkeep], ?_⟩
  rw [hdrop, hkeep]
  exact fun h => Ending.noConfusion (congrArg Prod.snd h)

end AfLocal
end Labs
