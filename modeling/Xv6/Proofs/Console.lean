import Xv6.Console

namespace Xv6.Console

/-- `all` is what was ever stored and not erased, and its bytes from `lo` on are in the ring; e
counts it modulo 2^32. -/
structure Shows (d : Cons) (lo : Nat) (all : List UInt8) : Prop where
  e : d.e.toNat = all.length % 2 ^ 32
  room : all.length ≤ lo + INPUT_BUF_SIZE
  ring : ∀ k b, lo ≤ k → all[k]? = some b → d.buf (k % INPUT_BUF_SIZE) = b

namespace Shows
variable {d : Cons} {lo : Nat} {all : List UInt8} {c : UInt8}

/-- A byte goes to the slot that nothing else uses. -/
theorem push (h : Shows d lo all) (hroom : all.length < lo + INPUT_BUF_SIZE) (c : UInt8) :
    Shows { d with buf := setAt d.buf (d.e.toNat % INPUT_BUF_SIZE) c, e := d.e + 1 } lo
      (all ++ [c]) := by
  have he := h.e
  refine ⟨?_, ?_, ?_⟩
  · have h1 : (1 : UInt32).toNat = 1 := rfl
    simp only [UInt32.toNat_add, List.length_append, List.length_singleton]
    omega
  · simp only [List.length_append, List.length_singleton]
    omega
  · intro k b hk hb
    obtain ⟨hlt, hget⟩ := List.getElem?_eq_some_iff.mp hb
    simp only [List.length_append, List.length_singleton] at hlt
    show setAt d.buf (d.e.toNat % INPUT_BUF_SIZE) c (k % INPUT_BUF_SIZE) = b
    have hslot : d.e.toNat % INPUT_BUF_SIZE = all.length % INPUT_BUF_SIZE := by
      simp only [INPUT_BUF_SIZE]
      omega
    rw [hslot, setAt_apply]
    by_cases hlast : k < all.length
    · have hother : k % INPUT_BUF_SIZE ≠ all.length % INPUT_BUF_SIZE := by
        simp only [INPUT_BUF_SIZE] at hroom ⊢
        omega
      rw [if_neg hother]
      refine h.ring k b hk ?_
      rw [← hb, List.getElem?_append_left hlast]
    · obtain rfl : k = all.length := by omega
      simpa using hget

/-- e--. -/
theorem pop (h : Shows d lo (all ++ [c])) : Shows { d with e := d.e - 1 } lo all := by
  have he := h.e
  have hr := h.room
  simp only [List.length_append, List.length_singleton] at he hr
  refine ⟨?_, by omega, fun k b hk hb => h.ring k b hk ?_⟩
  · have h1 : (1 : UInt32).toNat = 1 := rfl
    show (d.e - 1).toNat = _
    rw [UInt32.toNat_sub]
    omega
  · rw [List.getElem?_append_left (List.getElem?_eq_some_iff.mp hb).1]
    exact hb

/-- The last byte is at e - 1. -/
theorem last (h : Shows d lo (all ++ [c])) (hlo : lo ≤ all.length) :
    d.buf ((d.e - 1).toNat % INPUT_BUF_SIZE) = c := by
  have he := h.pop.e
  have hidx : (d.e - 1).toNat % INPUT_BUF_SIZE = all.length % INPUT_BUF_SIZE := by
    have he : (d.e - 1).toNat = all.length % 2 ^ 32 := he
    simp only [INPUT_BUF_SIZE]
    omega
  rw [hidx]
  exact h.ring _ _ hlo (by simp)

theorem mono {lo' : Nat} (h : Shows d lo all) (hlo : lo ≤ lo') : Shows d lo' all :=
  ⟨h.e, Nat.le_trans h.room (Nat.add_le_add_right hlo _),
    fun k b hk hb => h.ring k b (Nat.le_trans hlo hk) hb⟩

theorem congr {d' : Cons} (h : Shows d lo all) (hb : d'.buf = d.buf) (he : d'.e = d.e) :
    Shows d' lo all :=
  ⟨he ▸ h.e, h.room, hb ▸ h.ring⟩

end Shows

/-- The console shows the editor: r and w count what was consumed and what was committed, and the
ring holds what is committed and the line. -/
structure Mirrors (d : Cons) (ed : Editor) : Prop where
  r : d.r.toNat = ed.out.length % 2 ^ 32
  w : d.w.toNat = ed.stream.length % 2 ^ 32
  shows : Shows d ed.out.length (ed.stream ++ ed.line)
  line : newline ∉ ed.line

theorem stream_length (ed : Editor) : ed.stream.length = ed.out.length + ed.committed.length := by
  simp [Editor.stream]

namespace Mirrors
variable {d : Cons} {ed : Editor}

theorem init : Mirrors .init .start where
  r := rfl
  w := rfl
  shows := ⟨rfl, by simp [Editor.start, Editor.stream],
    fun k b _ h => by simp [Editor.start, Editor.stream] at h⟩
  line := by simp [Editor.start]

theorem room (h : Mirrors d ed) : ed.committed.length + ed.line.length ≤ INPUT_BUF_SIZE := by
  have := h.shows.room
  simp only [List.length_append, stream_length] at this
  omega

theorem e (h : Mirrors d ed) :
    d.e.toNat = (ed.out.length + ed.committed.length + ed.line.length) % 2 ^ 32 := by
  have := h.shows.e
  simpa only [List.length_append, stream_length] using this

/-- r = w if and only if nothing is committed. -/
theorem r_eq_w (h : Mirrors d ed) : d.r = d.w ↔ ed.committed = [] := by
  have h1 := h.r
  have h2 := h.w
  have h3 := h.room
  rw [stream_length] at h2
  simp only [INPUT_BUF_SIZE] at h3
  rw [← UInt32.toNat_inj, ← List.length_eq_zero_iff]
  omega

theorem used (h : Mirrors d ed) : (d.e - d.r).toNat = ed.committed.length + ed.line.length := by
  have h1 := h.r
  have h2 := h.e
  have h3 := h.room
  simp only [INPUT_BUF_SIZE] at h3
  rw [UInt32.toNat_sub]
  omega

theorem typed (h : Mirrors d ed) : (d.e - d.w).toNat = ed.line.length := by
  have h1 := h.w
  have h2 := h.e
  have h3 := h.room
  rw [stream_length] at h1
  simp only [INPUT_BUF_SIZE] at h3
  rw [UInt32.toNat_sub]
  omega

theorem e_eq_w (h : Mirrors d ed) : d.e = d.w ↔ ed.line = [] := by
  have h1 := h.w
  have h2 := h.e
  have h3 := h.room
  rw [stream_length] at h1
  simp only [INPUT_BUF_SIZE] at h3
  rw [← UInt32.toNat_inj, ← List.length_eq_zero_iff]
  omega

/-- e-- drops the last character of the line. -/
theorem erase (h : Mirrors d ed) {line : List UInt8} {c : UInt8} (hl : ed.line = line ++ [c]) :
    Mirrors { d with e := d.e - 1 } { ed with line := line } where
  r := h.r
  w := h.w
  shows := by
    have := h.shows
    rw [hl, ← List.append_assoc] at this
    exact this.pop
  line hm := h.line (by simp [hl, hm])

/-- ^U: the loop drops the whole line, which has no newline in it. -/
theorem killLine {k : Nat} (h : Mirrors d ed) (hk : ed.line.length = k) :
    Mirrors (d.killLine k) { ed with line := [] } := by
  induction k generalizing d ed with
  | zero =>
    have he : { ed with line := [] } = ed := by
      rw [← List.length_eq_zero_iff.mp hk]
    rw [he]
    exact h
  | succ k ih =>
    obtain ⟨line, c, hl⟩ : ∃ line c, ed.line = line ++ [c] := by
      have hne : ed.line ≠ [] := fun he => by simp [he] at hk
      exact ⟨_, _, (List.dropLast_concat_getLast hne).symm⟩
    have hne : d.e ≠ d.w := fun he => by simp [h.e_eq_w.mp he] at hk
    have hlast : d.buf ((d.e - 1).toNat % INPUT_BUF_SIZE) = c := by
      have := h.shows
      rw [hl, ← List.append_assoc] at this
      exact this.last (by simp [stream_length]; omega)
    have hc : c ≠ newline := fun he => h.line (by simp [hl, he])
    simp only [Cons.killLine, hne, hlast, hc, ne_eq, not_false_eq_true, and_self, if_true]
    have hrest := ih (h.erase hl) (by simpa [hl] using hk)
    exact hrest

/-- The default case of consoleintr(). -/
theorem store (h : Mirrors d ed) {c : UInt8} (h0 : c ≠ 0) : Mirrors (d.store c).2
    (if ed.committed.length + ed.line.length < INPUT_BUF_SIZE then
      ed.append (if c = '\r'.toUInt8 then newline else c) else ed) := by
  unfold Cons.store
  rw [h.used]
  by_cases hroom : ed.committed.length + ed.line.length < INPUT_BUF_SIZE
  · simp only [h0, hroom, ne_eq, not_false_eq_true, and_self, if_true]
    generalize (if c = '\r'.toUInt8 then newline else c) = c'
    have hpush := h.shows.push (by simp only [List.length_append, stream_length]; omega) c'
    have hused : (d.e + 1 - d.r).toNat = ed.committed.length + ed.line.length + 1 := by
      have h1 := h.r
      have h2 := h.e
      have h3 : (1 : UInt32).toNat = 1 := rfl
      simp only [INPUT_BUF_SIZE] at hroom
      rw [UInt32.toNat_sub, UInt32.toNat_add]
      omega
    simp only [hused, Editor.append, List.length_append, List.length_singleton, ← Nat.add_assoc]
    split
    · -- committed
      refine ⟨h.r, ?_, ?_, by simp⟩
      · have := hpush.e
        simpa [Editor.stream] using this
      · have hall : ed.out ++ (ed.committed ++ (ed.line ++ [c'])) = ed.stream ++ ed.line ++ [c'] := by
          simp [Editor.stream]
        show Shows _ _ (ed.out ++ (ed.committed ++ (ed.line ++ [c'])) ++ [])
        rw [List.append_nil, hall]
        exact hpush.congr rfl rfl
    · rename_i hc
      refine ⟨h.r, h.w, ?_, ?_⟩
      · rw [List.append_assoc] at hpush
        exact hpush
      · have hc' : c' ≠ newline := fun he => hc (.inl he)
        simp [h.line, Ne.symm hc']
  · simp only [hroom, and_false, if_false]
    exact h

/-- consoleintr() on one character is the editor's reaction to the key. -/
theorem edit (h : Mirrors d ed) (c : UInt8) : Mirrors (d.edit c).2 (ed.key c) := by
  unfold Cons.edit Editor.key
  by_cases hp : c = ctrl 'P'
  · simpa only [hp, true_or, if_true] using h
  · simp only [hp, if_false, false_or]
    by_cases h0 : c = 0
    · subst h0
      have h1 : (0 : UInt8) ≠ ctrl 'U' := by decide
      have h2 : (0 : UInt8) ≠ ctrl 'H' := by decide
      have h3 : (0 : UInt8) ≠ 0x7f := by decide
      simpa [h1, h2, h3, Cons.store] using h
    · simp only [h0, if_false]
      by_cases hu : c = ctrl 'U'
      · simp only [hu, if_true]
        exact h.killLine h.typed.symm
      · simp only [hu, if_false]
        by_cases hb : c = ctrl 'H' ∨ c = 0x7f
        · simp only [hb, if_true]
          by_cases he : d.e = d.w
          · have hl := h.e_eq_w.mp he
            have hsame : { ed with line := ed.line.dropLast } = ed := by
              rw [hl, List.dropLast_nil, ← hl]
            simpa only [he, ne_eq, not_true_eq_false, if_false, hsame] using h
          · simp only [he, ne_eq, not_false_eq_true, if_true]
            have hl : ed.line ≠ [] := fun hl => he (h.e_eq_w.mpr hl)
            exact h.erase (List.dropLast_concat_getLast hl).symm
        · simp only [hb, if_false]
          exact h.store h0

/-- The byte at r is the first that is committed. -/
theorem head (h : Mirrors d ed) {c : UInt8} {rest : List UInt8} (hc : ed.committed = c :: rest) :
    d.buf (d.r.toNat % INPUT_BUF_SIZE) = c := by
  have hr := h.r
  have hidx : d.r.toNat % INPUT_BUF_SIZE = ed.out.length % INPUT_BUF_SIZE := by
    simp only [INPUT_BUF_SIZE]
    omega
  rw [hidx]
  refine h.shows.ring _ _ (Nat.le_refl _) ?_
  simp [Editor.stream, hc]

/-- r++ consumes it. -/
theorem take (h : Mirrors d ed) {c : UInt8} {rest : List UInt8} (hc : ed.committed = c :: rest) :
    Mirrors { d with r := d.r + 1 } ed.take := by
  have hr := h.r
  have hstream : ed.take.stream = ed.stream := by
    simp [Editor.take, Editor.stream, hc]
  have hout : ed.take.out.length = ed.out.length + 1 := by
    simp [Editor.take, hc]
  refine ⟨?_, ?_, ?_, h.line⟩
  · have h1 : (1 : UInt32).toNat = 1 := rfl
    rw [hout]
    simp only [UInt32.toNat_add]
    omega
  · rw [hstream]
    exact h.w
  · rw [hstream, hout]
    exact (h.shows.mono (Nat.le_succ _)).congr rfl rfl

end Mirrors

namespace Editor

theorem append_out (c : UInt8) (ed : Editor) : (ed.append c).out = ed.out := by
  unfold append
  dsimp only
  split <;> rfl

theorem append_stream (c : UInt8) (ed : Editor) : ed.stream <+: (ed.append c).stream := by
  unfold append
  dsimp only
  split
  · exact (List.prefix_append_right_inj _).mpr (List.prefix_append _ _)
  · exact List.prefix_rfl

theorem key_out (c : UInt8) (ed : Editor) : (ed.key c).out = ed.out := by
  unfold key
  split
  · rfl
  · split
    · rfl
    · split
      · rfl
      · split
        · exact append_out _ _
        · rfl

/-- No key takes back what is committed. -/
theorem key_stream (c : UInt8) (ed : Editor) : ed.stream <+: (ed.key c).stream := by
  unfold key
  split
  · exact List.prefix_rfl
  · split
    · exact List.prefix_rfl
    · split
      · exact List.prefix_rfl
      · split
        · exact append_stream _ _
        · exact List.prefix_rfl

theorem take_stream (ed : Editor) : ed.take.stream = ed.stream := by
  simp only [take, stream, List.append_assoc, List.take_append_drop]

theorem replay_append (hist : List Event) (ev : Event) :
    replay (hist ++ [ev]) = (replay hist).on ev := by
  simp [replay]

end Editor

/-- copyout() of `n` bytes succeeds. -/
def Writable (dst : Nat → Bool) (n : Int) : Prop := ∀ i : Nat, (i : Int) < n → dst i = true

/-- What a consoleread() may have delivered: at most n bytes, no ^D, and nothing after a newline;
and how it ended fits. -/
structure Read.Proper (x : Read) : Prop where
  atMost : x.bytes.length ≤ x.n.toNat
  noEof : eof ∉ x.bytes
  oneLine : newline ∉ x.bytes.dropLast
  full : x.how = .full → x.n ≤ x.bytes.length
  newline : x.how = .newline → x.bytes.getLast? = some newline
  eof : x.how = .eof → x.bytes = []
  kept : x.how = .kept → x.bytes ≠ []

/-- The console shows the editor that saw the same keys and reads; with valid addresses what was
consumed was delivered; and every ^D that is gone was the end of a read that returned nothing. -/
structure Sound (v : Bool) (d : Cons) : Prop where
  mirrors : Mirrors d (.replay d.hist)
  taken : d.taken = (Editor.replay d.hist).out.length
  delivered : v = true → d.delivered = (Editor.replay d.hist).out.filter (· ≠ eof)
  proper : ∀ x ∈ d.reads, x.Proper
  kept : ∀ x ∈ d.reads, x.how = .kept → (Editor.replay d.hist).stream[x.pos]? = some eof
  eofs : ∀ k, (Editor.replay d.hist).out[k]? = some eof →
    ∃ x ∈ d.reads, x.how = .eof ∧ x.pos = k + 1

/-- The record kept of the reads. -/
def Cons.record (d : Cons) : List UInt8 × Nat × List Read := (d.delivered, d.taken, d.reads)

theorem killLine_record (k : Nat) (d : Cons) : (d.killLine k).record = d.record := by
  induction k generalizing d with
  | zero => rfl
  | succ k ih =>
    unfold Cons.killLine
    split
    · exact ih _
    · rfl

theorem edit_record (c : UInt8) (d : Cons) : (d.edit c).2.record = d.record := by
  unfold Cons.edit
  split
  · rfl
  · split
    · exact killLine_record _ _
    · split
      · split <;> rfl
      · unfold Cons.store
        split
        · generalize (if c = '\r'.toUInt8 then newline else c) = c'
          dsimp only
          split <;> rfl
        · rfl

namespace Sound
variable {v : Bool} {d : Cons} {n : Int} {bytes : List UInt8}

theorem init (v : Bool) : Sound v .init where
  mirrors := .init
  taken := rfl
  delivered _ := rfl
  proper _ hx := by cases hx
  kept _ hx := by cases hx
  eofs k hk := by simp [Cons.init, Editor.replay, Editor.start] at hk

/-- A read is over, other than at a ^D. -/
theorem logged (h : Sound v d) {how : Ending} (hk : how ≠ .kept)
    (hp : ∀ pos, Read.Proper ⟨n, bytes, how, pos⟩) : Sound v (d.logged n bytes how) where
  mirrors := ⟨h.mirrors.r, h.mirrors.w, h.mirrors.shows.congr rfl rfl, h.mirrors.line⟩
  taken := h.taken
  delivered := h.delivered
  proper x hx := by
    rcases List.mem_cons.mp hx with rfl | hx
    · exact hp _
    · exact h.proper x hx
  kept x hx hh := by
    rcases List.mem_cons.mp hx with rfl | hx
    · exact (hk hh).elim
    · exact h.kept x hx hh
  eofs k he := by
    obtain ⟨x, hx, hh⟩ := h.eofs k he
    exact ⟨x, List.mem_cons_of_mem _ hx, hh⟩

/-- consoleintr() leaves what was committed and consumed as it is. -/
theorem intr (h : Sound v d) (c : UInt8) : Sound v (d.intr c).2 := by
  have hrec := edit_record c d
  simp only [Cons.record, Prod.mk.injEq] at hrec
  obtain ⟨h1, h2, h3⟩ := hrec
  have hm := h.mirrors.edit c
  have hed : Editor.replay (d.intr c).2.hist = (Editor.replay d.hist).key c :=
    Editor.replay_append _ _
  have hout := Editor.key_out c (.replay d.hist)
  refine ⟨?_, ?_, ?_, ?_, ?_, ?_⟩
  · rw [hed]
    exact ⟨hm.r, hm.w, hm.shows.congr rfl rfl, hm.line⟩
  · rw [hed, hout]
    exact h2.trans h.taken
  · rw [hed, hout]
    exact fun hv => h1.trans (h.delivered hv)
  · exact fun x hx => h.proper x (h3 ▸ hx)
  · intro x hx hh
    rw [hed]
    obtain ⟨t, ht⟩ := Editor.key_stream c (.replay d.hist)
    have hpos := h.kept x (h3 ▸ hx) hh
    rw [← ht, List.getElem?_append_left (List.getElem?_eq_some_iff.mp hpos).1]
    exact hpos
  · rw [hed, hout]
    intro k hk
    obtain ⟨x, hx, hh⟩ := h.eofs k hk
    exact ⟨x, h3.symm ▸ hx, hh⟩

/-- A byte is consumed, and delivered unless it is a ^D. -/
theorem take (h : Sound v d) {c : UInt8} {rest : List UInt8} {reads : List Read}
    {delivered : List UInt8} (hc : (Editor.replay d.hist).committed = c :: rest)
    (hdel : v = true → delivered = if c = eof then d.delivered else d.delivered ++ [c])
    (hold : ∀ x ∈ d.reads, x ∈ reads)
    (hnew : ∀ x ∈ reads, x ∈ d.reads ∨ x.Proper ∧ x.how ≠ .kept)
    (heof : c = eof → ∃ x ∈ reads, x.how = .eof ∧ x.pos = d.taken + 1) :
    Sound v { d with
      r := d.r + 1
      hist := d.hist ++ [.take]
      taken := d.taken + 1
      delivered := delivered
      reads := reads } := by
  have hm := h.mirrors.take hc
  have hed : Editor.replay (d.hist ++ [.take]) = (Editor.replay d.hist).take :=
    Editor.replay_append _ _
  have hout : (Editor.replay d.hist).take.out = (Editor.replay d.hist).out ++ [c] := by
    simp [Editor.take, hc]
  refine ⟨?_, ?_, ?_, ?_, ?_, ?_⟩
  · show Mirrors _ (.replay (d.hist ++ [.take]))
    rw [hed]
    exact ⟨hm.r, hm.w, hm.shows.congr rfl rfl, hm.line⟩
  · show d.taken + 1 = (Editor.replay (d.hist ++ [.take])).out.length
    rw [hed, hout, h.taken]
    simp
  · intro hv
    show delivered = (Editor.replay (d.hist ++ [.take])).out.filter (· ≠ eof)
    rw [hed, hout, List.filter_append, ← h.delivered hv, hdel hv]
    by_cases he : c = eof <;> simp [he]
  · intro x hx
    rcases hnew x hx with hx | hx
    · exact h.proper x hx
    · exact hx.1
  · intro x hx hh
    show (Editor.replay (d.hist ++ [.take])).stream[x.pos]? = some eof
    rw [hed, Editor.take_stream]
    rcases hnew x hx with hx | hx
    · exact h.kept x hx hh
    · exact (hx.2 hh).elim
  · intro k hk
    have hk : (Editor.replay (d.hist ++ [.take])).out[k]? = some eof := hk
    rw [hed, hout] at hk
    by_cases hlt : k < (Editor.replay d.hist).out.length
    · rw [List.getElem?_append_left hlt] at hk
      obtain ⟨x, hx, hh⟩ := h.eofs k hk
      exact ⟨x, hold x hx, hh⟩
    · have hlast : k = (Editor.replay d.hist).out.length := by
        have := (List.getElem?_eq_some_iff.mp hk).1
        simp only [List.length_append, List.length_singleton] at this
        omega
      subst hlast
      obtain ⟨x, hx, hh, hpos⟩ := heof (by simpa using hk)
      exact ⟨x, hx, hh, by rw [hpos, h.taken]⟩

/-- One byte of consoleread(). -/
theorem next (h : Sound v d) (hrw : d.r ≠ d.w) {ok : Bool} (hok : v = true → ok = true)
    (hlen : bytes.length ≤ n.toNat) (he : eof ∉ bytes) (hn : newline ∉ bytes) :
    Sound v (d.next ok n bytes).2 := by
  obtain ⟨c, rest, hc⟩ := List.exists_cons_of_ne_nil (fun hz => hrw (h.mirrors.r_eq_w.mpr hz))
  have hhead := h.mirrors.head hc
  have hproper : ∀ how pos, how ≠ .full → how ≠ .newline → (how = .eof → bytes = []) →
      (how = .kept → bytes ≠ []) → Read.Proper ⟨n, bytes, how, pos⟩ := fun how pos h1 h2 h3 h4 =>
    ⟨hlen, he, fun hm => hn (List.dropLast_subset _ hm), fun hh => (h1 hh).elim,
      fun hh => (h2 hh).elim, h3, h4⟩
  unfold Cons.next
  simp only [hhead]
  by_cases hceof : c = eof
  · subst hceof
    simp only [if_true]
    by_cases hb : bytes.length > 0
    · -- put back for the next read
      simp only [hb, if_true]
      have hr : d.r + 1 - 1 = d.r := by
        rw [UInt32.add_sub_cancel]
      have hne : bytes ≠ [] := fun hz => by simp [hz] at hb
      refine ⟨?_, h.taken, h.delivered, ?_, ?_, ?_⟩
      · refine ⟨?_, h.mirrors.w, h.mirrors.shows.congr rfl rfl, h.mirrors.line⟩
        show (d.r + 1 - 1).toNat = _
        rw [hr]
        exact h.mirrors.r
      · intro x hx
        rcases List.mem_cons.mp hx with rfl | hx
        · exact hproper _ _ (by simp) (by simp) (by simp) (fun _ => hne)
        · exact h.proper x hx
      · intro x hx hh
        rcases List.mem_cons.mp hx with rfl | hx
        · show (Editor.replay d.hist).stream[d.taken]? = some eof
          rw [h.taken]
          simp [Editor.stream, hc]
        · exact h.kept x hx hh
      · intro k hk
        obtain ⟨x, hx, hh⟩ := h.eofs k hk
        exact ⟨x, List.mem_cons_of_mem _ hx, hh⟩
    · simp only [hb, if_false]
      have hnil : bytes = [] := List.length_eq_zero_iff.mp (by omega)
      refine h.take hc (fun _ => by simp) (fun x hx => List.mem_cons_of_mem _ hx) ?_
        (fun _ => ⟨_, List.mem_cons_self, rfl, rfl⟩)
      intro x hx
      rcases List.mem_cons.mp hx with rfl | hx
      · exact .inr ⟨hproper _ _ (by simp) (by simp) (fun _ => hnil) (by simp), by simp⟩
      · exact .inl hx
  · simp only [hceof, if_false]
    refine h.take hc (fun hv => ?_) (fun x hx => hx) (fun x hx => .inl hx) (fun hh => (hceof hh).elim)
    simp [hok hv, hceof]

end Sound

/-- The lock protects the data and nothing else: what holds of it holds always. -/
def rules (v : Bool) : Rules Pid Unit Cons where
  always := Sound v
  free _ _ := True
  guar _ d d' := (Editor.replay d.hist).stream <+: (Editor.replay d'.hist).stream
  env _ _ _ := False
  wakes h := h
  env_always _ h := h.elim
  env_free _ _ h := h.elim

def conduct (v : Bool) : Conduct Panic State Pid := (rules v).conduct (fun _ => False)

variable {v : Bool} {pr : Pid} {s : State}

theorem firm (q : Cons → Prop) : (rules v).Firm pr (fun _ d => q d) where
  kill _ h := h
  env _ _ _ he := he.elim

abbrev Inside (pr : Pid) (q : Cons → Prop) : State → Prop := Rules.Inside pr (fun _ d => q d)
abbrev Outside (pr : Pid) : State → Prop := Rules.Outside pr (fun _ => True)

/-- The arguments of a read, and what it has delivered so far. -/
structure Fine (v : Bool) (dst : Nat → Bool) (n : Int) (bytes : List UInt8) : Prop where
  valid : v = true → Writable dst n
  atMost : bytes.length ≤ n.toNat
  noEof : eof ∉ bytes
  noNewline : newline ∉ bytes

/-- What a thread knows between two programs. -/
def Knows (v : Bool) (pr : Pid) : Next → State → Prop
  | .user _, s => Outside pr s
  | .reading dst n bytes, s => Fine v dst n bytes ∧ Inside pr (fun _ => True) s

theorem knows_stable (pr : Pid) (a : Next) : (conduct v).team.Stable pr (Knows v pr a) := by
  cases a with
  | user r => exact Rules.Outside.stable Rules.lasting_true
  | reading dst n bytes =>
    have hst : (conduct v).team.Stable pr (Inside pr (fun _ => True)) := Rules.Inside.stable (firm _)
    exact Conduct.stable fun _ _ _ hi hj hm h => ⟨h.1, hst.move hi hj hm h.2⟩

theorem safe_acquire (h : Outside pr s) : (conduct v).team.Safe pr (Monitor.acquire .acquire pr)
    (fun _ => Inside pr (fun _ => True)) s :=
  (Rules.safe_acquire Rules.lasting_true h).mono fun _ _ hu => ⟨hu.lock, hu.awake, trivial⟩

theorem safe_release {q : Cons → Prop} (h : Inside pr q s) :
    (conduct v).team.Safe pr (Monitor.release .release pr) (fun _ => Outside pr) s :=
  Rules.safe_release (firm _) h fun _ _ _ _ => ⟨trivial, trivial⟩

theorem safe_readEnd {q : Cons → Prop} (h : Inside pr q s) {n : Int} {bytes : List UInt8}
    {how : Ending} (result : Int) (hk : how ≠ .kept) (hp : ∀ pos, Read.Proper ⟨n, bytes, how, pos⟩) :
    (conduct v).team.Safe pr (readEnd pr n bytes how result) (Knows v pr) s := by
  have hrel : (conduct v).team.Safe pr (Monitor.releaseWith .release pr (Cons.logged n bytes how))
      (fun _ => Outside pr) s :=
    Rules.safe_releaseWith (firm _) h fun _ _ hd _ =>
      ⟨trivial, hd.logged hk hp, .inr List.prefix_rfl, trivial⟩
  exact hrel.seq fun _ _ hu => hu

theorem next_stream (d : Cons) (ok : Bool) (n : Int) (bytes : List UInt8) :
    (Editor.replay d.hist).stream <+: (Editor.replay (d.next ok n bytes).2.hist).stream := by
  have htake : (Editor.replay d.hist).stream <+: (Editor.replay (d.hist ++ [.take])).stream := by
    simp only [Editor.replay_append, Editor.on, Editor.take_stream, List.prefix_rfl]
  unfold Cons.next
  dsimp only
  split
  · split
    · exact List.prefix_rfl
    · exact htake
  · exact htake

theorem safe_readRound {dst : Nat → Bool} {n : Int} {bytes : List UInt8}
    (hf : Fine v dst n bytes) (h : Inside pr (fun _ => True) s) :
    (conduct v).team.Safe pr (readRound pr dst n bytes) (Knows v pr) s := by
  have hdrop : newline ∉ bytes.dropLast := fun hm => hf.noNewline (List.dropLast_subset _ hm)
  unfold readRound
  split
  · rename_i hlt
    have hempty : (conduct v).team.Safe pr (Monitor.read (fun d => d.r == d.w))
        (fun b => Inside pr (fun d => (d.r == d.w) = b)) s :=
      (Rules.safe_read (firm _) h).mono fun _ _ hu => ⟨hu.lock, hu.awake, hu.holds.2⟩
    refine hempty.seq fun b u hu => ?_
    cases b with
    | true =>
      refine (Rules.safe_killedOf (firm _) hu).seq fun b x hx => ?_
      cases b with
      | true => exact safe_readEnd hx _ (by simp) fun _ =>
          ⟨hf.atMost, hf.noEof, hdrop, by simp, by simp, by simp, by simp⟩
      | false =>
        refine (Rules.safe_sleep (firm _) Rules.lasting_true hx fun _ _ _ _ =>
          ⟨trivial, trivial⟩).seq fun _ y hy => ?_
        exact ⟨hf, hy.lock, hy.awake, trivial⟩
    | false =>
      have hok : v = true → dst bytes.length = true := fun hv => hf.valid hv _ hlt
      have hnext : (conduct v).team.Safe pr
          (Monitor.onData (Cons.next (dst bytes.length) n bytes))
          (fun _ => Inside pr (fun _ => True)) u := by
        refine Rules.safe_onData (firm _) hu fun _ d hd hp => ?_
        have hrw : d.r ≠ d.w := by simpa using hp
        exact ⟨hd.next hrw hok hf.atMost hf.noEof hf.noNewline, .inr (next_stream _ _ _ _), trivial⟩
      refine hnext.seq fun c x hx => ?_
      have hlen : (bytes ++ [c]).length ≤ n.toNat := by
        simp only [List.length_append, List.length_singleton]
        omega
      by_cases hc : c = eof
      · simp only [hc, if_true]
        exact (safe_release hx).seq fun _ _ hy => hy
      · have hne : eof ∉ bytes ++ [c] := by
          simp [hf.noEof, Ne.symm hc]
        simp only [hc, if_false]
        by_cases hdst : dst bytes.length = false
        · simp only [hdst, if_true]
          exact safe_readEnd hx _ (by simp) fun _ =>
            ⟨hf.atMost, hf.noEof, hdrop, by simp, by simp, by simp, by simp⟩
        · simp only [hdst]
          by_cases hn : c = newline
          · simp only [hn, if_true]
            refine safe_readEnd hx _ (by simp) fun _ => ?_
            subst hn
            exact ⟨hlen, hne, by simpa using hf.noNewline, by simp, by simp, by simp, by simp⟩
          · simp only [hn, if_false]
            exact ⟨⟨hf.valid, hlen, hne, by simp [hf.noNewline, Ne.symm hn]⟩, hx⟩
  · rename_i hge
    refine safe_readEnd h _ (by simp) fun _ => ?_
    exact ⟨hf.atMost, hf.noEof, hdrop, fun _ => Int.not_lt.mp hge, by simp, by simp, by simp⟩

theorem safe_consoleintr (h : Outside pr s) (c : UInt8) :
    (conduct v).team.Safe pr (consoleintr pr c) (Knows v pr) s := by
  refine (safe_acquire h).seq fun _ u hu => ?_
  have hintr : (conduct v).team.Safe pr (Monitor.onData (Cons.intr c))
      (fun _ => Inside pr (fun _ => True)) u := by
    refine Rules.safe_onData (firm _) hu fun _ d hd _ => ⟨hd.intr c, .inr ?_, trivial⟩
    show _ <+: (Editor.replay (d.hist ++ [.key c])).stream
    rw [Editor.replay_append]
    exact Editor.key_stream _ _
  refine hintr.seq fun b x hx => ?_
  cases b with
  | true =>
    have hwake : (conduct v).team.Safe pr (Monitor.wakeup ()) (fun _ => Inside pr (fun _ => True)) x :=
      Rules.safe_wakeup (firm _) hx fun _ _ _ _ => trivial
    exact hwake.seq fun _ _ hy => (safe_release hy).seq fun _ _ hz => hz
  | false => exact (safe_release hx).seq fun _ _ hy => hy

/-- The call is a read of a positive number of bytes to a valid address, or another call. -/
def Call.Valid : Call → Prop
  | .read dst n => 0 < n ∧ Writable dst n
  | _ => True

theorem obey : Pool.Obey (conduct v) calls (Knows v) (fun c => v = true → c.Valid) where
  stable := knows_stable
  onward pr a r s hr _ h := by
    cases a with
    | user x => cases hr
    | reading dst n bytes =>
      cases hr
      exact safe_readRound h.1 h.2
  call pr a c s hc ha _ h _ := by
    cases a with
    | user x =>
      cases c with
      | read dst n =>
        refine (safe_acquire h).seq fun _ u hu => ⟨⟨fun hv => (hc hv).2, ?_, ?_, ?_⟩, hu⟩
        · simp
        · simp
        · simp
      | intr c => exact safe_consoleintr h c
      | kill j => exact (Rules.safe_kill j h Rules.lasting_true).seq fun _ _ hu => hu
    | reading dst n bytes => cases ha

/-- The bytes of the ring between two indices. -/
def Cons.between (d : Cons) (lo hi : UInt32) : List UInt8 :=
  (List.range (hi - lo).toNat).map (fun k => d.buf ((lo.toNat + k) % INPUT_BUF_SIZE))

/-- A piece of what the ring shows. -/
theorem Shows.between {d : Cons} {lo : Nat} {a b c : List UInt8} {x y : UInt32}
    (h : Shows d lo (a ++ b ++ c)) (hlo : lo ≤ a.length) (hx : x.toNat = a.length % 2 ^ 32)
    (hy : y.toNat = (a.length + b.length) % 2 ^ 32) (hb : b.length ≤ INPUT_BUF_SIZE) :
    d.between x y = b := by
  have hlen : (y - x).toNat = b.length := by
    simp only [INPUT_BUF_SIZE] at hb
    rw [UInt32.toNat_sub]
    omega
  refine List.ext_getElem (by simp [Cons.between, hlen]) fun k hk hk' => ?_
  have hidx : (x.toNat + k) % INPUT_BUF_SIZE = (a.length + k) % INPUT_BUF_SIZE := by
    simp only [INPUT_BUF_SIZE]
    omega
  simp only [Cons.between, List.getElem_map, List.getElem_range, hidx]
  refine h.ring _ _ (by omega) ?_
  rw [List.append_assoc, List.getElem?_append_right (Nat.le_add_right _ _), Nat.add_sub_cancel_left,
    List.getElem?_append_left hk']
  exact List.getElem?_eq_getElem hk'

theorem Mirrors.committed {d : Cons} {ed : Editor} (h : Mirrors d ed) :
    d.between d.r d.w = ed.committed := by
  refine h.shows.between (Nat.le_refl _) h.r ?_ (Nat.le_trans (Nat.le_add_right _ _) h.room)
  rw [h.w, stream_length]

theorem Mirrors.typing {d : Cons} {ed : Editor} (h : Mirrors d ed) : d.between d.w d.e = ed.line := by
  have hs := h.shows
  rw [← List.append_nil (ed.stream ++ ed.line)] at hs
  refine hs.between ?_ h.w ?_ (Nat.le_trans (Nat.le_add_left _ _) h.room)
  · simp [stream_length]
  · rw [h.e, stream_length]

/-- A run in which every read is of a positive number of bytes to a valid address. -/
def ValidRun (as : List Action) (m : Machine) : Prop :=
  runAll step boot as = some m ∧ ∀ a ∈ as, a.All Call.Valid

theorem all_valid {a : Action} (h : a.All Call.Valid) : a.All (fun c => true = true → c.Valid) := by
  cases a with
  | run i => trivial
  | call i c => exact fun _ => h

theorem boot_inv : (conduct v).inv boot.state := ⟨Sound.init v, fun _ => trivial⟩

theorem boot_knows (pr : Pid) : Knows v pr (.user 0) boot.state :=
  ⟨by simp [boot, Pool.start, Monitor.start], rfl, trivial⟩

theorem ValidRun.ok {as : List Action} {m : Machine} (h : ValidRun as m) :
    Pool.Ok (conduct true) (Knows true) m :=
  .of_run obey boot_inv boot_knows (fun a ha => all_valid (h.2 a ha)) h.1

/-- The console as the editor that saw the same keys and reads (`ed`), for any interleaving:
the indices are in order as unbounded counts, the ring holds what is committed and the line being
typed, what reads delivered is what was committed, in order and without the ^Ds; what is committed
stays; each read was of at most n bytes and ended as it should, a ^D it left is still the next
byte to come or has been consumed by a read that returned 0. -/
theorem console_line_discipline {as : List Action} {m : Machine} (h : ValidRun as m) :
    ∃ ed : Editor, ed = .replay m.state.data.hist ∧
    (m.state.data.r.toNat = ed.out.length % 2 ^ 32 ∧
      m.state.data.w.toNat = (ed.out.length + ed.committed.length) % 2 ^ 32 ∧
      m.state.data.e.toNat = (ed.out.length + ed.committed.length + ed.line.length) % 2 ^ 32 ∧
      ed.out.length + ed.committed.length + ed.line.length ≤ ed.out.length + INPUT_BUF_SIZE) ∧
    (m.state.data.between m.state.data.r m.state.data.w = ed.committed ∧
      m.state.data.between m.state.data.w m.state.data.e = ed.line) ∧
    m.state.data.delivered = ed.out.filter (· ≠ eof) ∧
    (∀ a m', a.All Call.Valid → step m a = some m' →
      ed.stream <+: (Editor.replay m'.state.data.hist).stream) ∧
    (∀ x ∈ m.state.data.reads, x.Proper ∧ (x.how = .kept → ed.stream[x.pos]? = some eof)) ∧
    ∀ k, ed.out[k]? = some eof →
      ∃ x ∈ m.state.data.reads, x.how = .eof ∧ x.bytes = [] ∧ x.pos = k + 1 := by
  have hok := h.ok
  have hs : Sound true m.state.data := hok.inv.always
  have hm := hs.mirrors
  refine ⟨_, rfl, ⟨hm.r, ?_, hm.e, ?_⟩, ⟨hm.committed, hm.typing⟩, hs.delivered rfl, ?_,
    fun x hx => ⟨hs.proper x hx, hs.kept x hx⟩, fun k hk => ?_⟩
  · rw [hm.w, stream_length]
  · have := hm.room
    omega
  · intro a m' ha hstep
    rcases (hok.step obey (all_valid ha) hstep).2 with he | ⟨i, hmove⟩
    · exact he ▸ List.prefix_rfl
    · rcases hmove.data with he | hg | hf
      · exact he ▸ List.prefix_rfl
      · exact hg
      · exact hf.elim
  · obtain ⟨x, hx, hh, hpos⟩ := hs.eofs k hk
    exact ⟨x, hx, hh, (hs.proper x hx).eof hh, hpos⟩

/-- The user types a, b, backspace, return and ^D; then a process reads twice. -/
def typeAndRead : List Action :=
  ([(97, 3), (98, 3), (8, 3), (13, 4), (4, 4)].flatMap fun x =>
    .call 1 (.intr x.1) :: List.replicate x.2 (.run 1)) ++
  [.call 2 (.read (fun _ => true) 10)] ++ List.replicate 8 (.run 2) ++
  [.call 2 (.read (fun _ => true) 10)] ++ List.replicate 5 (.run 2)

theorem console_line_discipline_typed : ∃ m, ValidRun typeAndRead m ∧
    m.state.data.delivered = [97, 10] ∧
    m.state.data.reads = [⟨10, [], .eof, 3⟩, ⟨10, [97, 10], .newline, 2⟩] ∧
    m.state.data.delivered = (Editor.replay m.state.data.hist).out.filter (· ≠ eof) := by
  have hrun : (runAll step boot typeAndRead).any (fun m =>
      decide (m.state.data.delivered = [97, 10] ∧
        m.state.data.reads = [⟨10, [], .eof, 3⟩, ⟨10, [97, 10], .newline, 2⟩])) = true := by
    decide +kernel
  obtain ⟨m, hm, hp⟩ := (Option.any_eq_true _ _).mp hrun
  obtain ⟨h1, h2⟩ := of_decide_eq_true hp
  have hvalid : ∀ a ∈ typeAndRead, a.All Call.Valid := by
    simp [typeAndRead, PoolAction.All, Call.Valid, Writable]
  obtain ⟨ed, rfl, -, -, hdel, -⟩ := console_line_discipline ⟨hm, hvalid⟩
  exact ⟨m, ⟨hm, hvalid⟩, h1, h2, hdel⟩

end Xv6.Console
