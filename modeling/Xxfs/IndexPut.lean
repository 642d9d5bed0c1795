import Xxfs.IndexStep
import Xxfs.Lib.PagedMap

namespace Xxfs.IndexRep

open Xxfs.DiskFormat Xxfs.Machine Xxfs.Allocator Xxfs.PageCache Xxfs.PagedIndex Xxfs.PageStore
open Xxfs.Hash Xxfs.Frames Xxfs.Lib.Computation Xxfs.Lib.Computation.Comp

section total

variable (env : Env)

theorem tick_total : Total tick := .bind .get fun _ ↦ .bind (.modify _) fun _ ↦ .pure _

theorem osPwrite_total (src : ℕ → UInt8) (len : ℕ) (off : UInt64) :
    Total (osPwrite env src len off) :=
  .bind tick_total fun _ ↦ .ite (.bind (.modify _) fun _ ↦ .pure _) (.pure _)

theorem osFileExtend_total (size : UInt64) : Total (osFileExtend env size) := by
  refine .bind (.bind tick_total fun _ ↦ .bind .get fun _ ↦ .pure _) fun r ↦ ?_
  cases r with
  | none => exact .pure _
  | some cur =>
    exact .ite (.pure _) (.bind tick_total fun _ ↦ .ite (.bind (.modify _) fun _ ↦ .pure _) (.pure _))

theorem pageAlloc_total : Total (pageAlloc env) :=
  .bind .get fun _ ↦ .ite
    (.bind (osFileExtend_total env _) fun _ ↦ .ite (.bind (.modify _) fun _ ↦ .pure _) (.pure _))
    (.bind (.modify _) fun _ ↦ .pure _)

theorem writeRecord_total (key : Path) (val : List UInt8) : Total (writeRecord env key val) := by
  refine .bind (pageAlloc_total env) fun _ ↦ .ite (.pure _) (.bind (.bind .get fun _ ↦ ?_) fun r ↦ ?_)
  · exact .ite (.pure _) (.bind (.bind tick_total fun _ ↦ .pure _) fun _ ↦ .ite (.pure _) (.pure _))
  · cases r with
    | none => exact .pure _
    | some _ => exact .bind (osPwrite_total env _ _ _) fun _ ↦ .ite (.pure _) (.pure _)

theorem pageWriteback_total (pg : PagedPage) (off : UInt64) : Total (pageWriteback env pg off) :=
  .bind .get fun _ ↦ .ite (.modify _) (.bind (osPwrite_total env _ _ _) fun _ ↦ .pure _)

theorem appendSlot_total (pg : PagedPage) (off h : UInt64) (key : Path) (val : List UInt8) :
    Total (appendSlot env pg off h key val) := by
  refine .ite (.bind (pageWriteback_total env _ _) fun _ ↦ .pure _)
    (.bind (writeRecord_total env _ _) fun r ↦ ?_)
  cases r with
  | error rc => exact .bind (.bind .get fun _ ↦ .ite (.modify _) (.pure _)) fun _ ↦ .pure _
  | ok off => exact .bind (pageWriteback_total env _ _) fun _ ↦ .pure _

end total

section store

variable {env : Env} {fs : Fs} {pre post : Chain} {o : UInt64} {es es' : List Ent}

theorem mid_mem_offs : o ∈ offs (pre ++ (o, es) :: post) := by
  simp

theorem Represents.locs_apart (h : Represents fs (pre ++ (o, es) :: post)) {b b' : UInt64}
    (hb : b ∈ recs pre ++ recs post) (hb' : b' ∈ locs es) : b ≠ b' := by
  rintro rfl
  have hnd := h.nodup
  rw [blocks_middle] at hnd
  obtain ⟨-, hC, hdis⟩ := List.nodup_append.mp hnd
  rcases List.mem_append.mp hb with hb | hb
  · exact hdis b (List.mem_append_right _ hb) b (List.mem_append_left _ hb') rfl
  · exact (List.nodup_append.mp hC).2.2 b hb' b hb rfl

theorem locs_sub_recs (pre post : Chain) (o : UInt64) {b : UInt64} (hb : b ∈ locs es) :
    b ∈ recs (pre ++ (o, es) :: post) :=
  mem_recs (p := (o, es)) (by simp) hb

theorem recs_sub_recs {b : UInt64} (hb : b ∈ recs pre ++ recs post) :
    b ∈ recs (pre ++ (o, es) :: post) := by
  simp only [recs_append, recs_cons, List.mem_append] at hb ⊢
  tauto

theorem Represents.store (he : Healthy env) (h : Represents fs (pre ++ (o, es) :: post))
    (fs₁ : Fs) (pg : PagedPage) (hc : fs₁.pcache = fs.pcache) (hdir : fs₁.pdir = fs.pdir)
    (hsb : ∃ n, n ≤ fs.sb.sFreeBlocks ∧ fs₁.sb = taken fs.sb n) (hbound : front fs₁.sb < 2 ^ 63)
    (hdata : ∀ i, (∀ b ∈ locs es, ¬InBlock b i) → ¬(front fs.sb ≤ i ∧ i < front fs₁.sb) →
      fs₁.img.data i = fs.img.data i) (hsize : fs.img.size ≤ fs₁.img.size)
    (hnext : pg.overflowNext = (pageAt fs o).overflowNext) (hrep : PageRep fs₁.img pg es')
    (hnd : (locs es').Nodup)
    (hlocs : ∀ b ∈ locs es', b ∈ locs es ∨ b.toNat % 4096 = 0 ∧ front fs.sb ≤ b.toNat ∧
      b.toNat + 4096 ≤ front fs₁.sb) :
    ∃ fs', pageWriteback env pg o fs₁ = some ((), fs') ∧ fs'.sb = fs₁.sb ∧
      Represents fs' (pre ++ (o, es') :: post) ∧
      Moved (pre ++ (o, es) :: post) (pre ++ (o, es') :: post) fs fs' := by
  have ho : o ∈ offs (pre ++ (o, es) :: post) := mid_mem_offs
  have hbelow (b : UInt64) (hb : b ∈ blocks (pre ++ (o, es) :: post)) (i : ℕ) (hi : InBlock b i) :
      ¬(front fs.sb ≤ i ∧ i < front fs₁.sb) := by
    have := (h.within b hb).2.2
    have := hi.2
    omega
  have hkeep (b : UInt64) (hb : b ∈ recs pre ++ recs post) (i : ℕ) (hi : InBlock b i) :
      fs₁.img.data i = fs.img.data i := by
    refine hdata i (fun b' hb' ↦ ?_) (hbelow b (recs_subset_blocks (recs_sub_recs hb)) i hi)
    exact (h.usable (recs_subset_blocks (recs_sub_recs hb))).disjoint
      (h.usable (recs_subset_blocks (locs_sub_recs _ _ _ hb'))) (h.locs_apart hb hb') hi
  have hpage (q : UInt64) (hq : q ∈ offs (pre ++ (o, es) :: post)) (i : ℕ) (hi : InBlock q i) :
      fs₁.img.data i = fs.img.data i := by
    refine hdata i (fun b hb hib ↦ ?_) (hbelow q (offs_subset_blocks hq) i hi)
    exact h.rec_outside (locs_sub_recs _ _ _ hb) hib q hq hi
  have hk₁ := h.pages.of_data hc hpage
  obtain ⟨fs', hwb, hk', hst⟩ := pageWriteback_apply he hk₁ ho pg
  have hsb' : ∃ n, n ≤ fs.sb.sFreeBlocks ∧ fs'.sb = taken fs.sb n := by
    obtain ⟨n, hn, hsb⟩ := hsb
    exact ⟨n, hn, hst.sb.trans hsb⟩
  have hlocs' : ∀ b ∈ locs es', b ∈ locs es ∨ b.toNat % 4096 = 0 ∧ front fs.sb ≤ b.toNat ∧
      b.toNat + 4096 ≤ front fs'.sb := by rw [hst.sb]; exact hlocs
  have hsize' := hsize.trans hst.size
  have hout {b : UInt64} (hb : b ∈ locs es') {i : ℕ} (hi : InBlock b i) : ¬InBlock o i := by
    rcases hlocs b hb with hb | ⟨-, hb, -⟩
    · exact h.rec_outside (locs_sub_recs _ _ _ hb) hi o ho
    · intro hio
      have := (h.within o (offs_subset_blocks ho)).2.2
      obtain ⟨_, _⟩ := hi
      obtain ⟨_, _⟩ := hio
      omega
  refine ⟨fs', hwb, hst.sb, h.modify (hst.pdir.trans hdir) hsb' (by rwa [hst.sb]) hk' (fun q hq hqo ↦ ?_)
    (by rw [hst.page, hnext]) ?_ (fun b hb i hi ↦ ?_) hsize' hnd hlocs',
    Moved.modify hsb' hlocs' (fun i hio hi hf ↦ ?_) hsize'⟩
  · rw [hst.pages q hq hqo]
    exact pageAt_of_data hc hpage hq
  · rw [hst.page]
    exact hrep.congr (fun b hb i hi ↦ hst.data i (hout hb hi)) hst.size
  · rw [hst.data i (h.rec_outside (recs_sub_recs hb) hi o ho)]
    exact hkeep b hb i hi
  · rw [hst.data i hio]
    exact hdata i hi (by rwa [← hst.sb])

end store

section record

variable {env : Env} {fs : Fs} {key : Path} {val : List UInt8}

theorem recordAt_write (img : Image) (off : UInt64) (key : Path) (val : List UInt8) :
    RecordAt (img.write (recordBytes key val) (recLen key.length val.length) off.toNat) off key
      val := by
  have hlen : recLen key.length val.length = 8 + key.length + val.length := rfl
  refine ⟨fun j hj ↦ ?_, fun j hj ↦ ?_, ?_⟩
  · rw [Image.write_in _ _ (by omega) (by omega), ← recordBytes_key key val hj]
    congr 1
    omega
  · rw [Image.write_in _ _ (by omega) (by omega), ← recordBytes_val key val hj]
    congr 1
    omega
  · simp only [Image.write, hlen]
    rw [if_neg (by omega)]
    omega

/-- What writing a record into a block of the pool does. -/
structure Recorded (key : Path) (val : List UInt8) (fs fs' : Fs) : Prop where
  pcache : fs'.pcache = fs.pcache
  pdir : fs'.pdir = fs.pdir
  sb : fs'.sb = taken fs.sb 1
  front : front fs'.sb = front fs.sb + 4096
  off : (nextOff fs.sb).toNat = Allocator.front fs.sb
  record : RecordAt fs'.img (nextOff fs.sb) key val
  data : ∀ i, ¬(Allocator.front fs.sb ≤ i ∧ i < Allocator.front fs'.sb) →
    fs'.img.data i = fs.img.data i
  size : fs.img.size ≤ fs'.img.size

theorem writeRecord_apply (he : Healthy env) (hp : PoolOk fs.sb) (hl : Live fs)
    (hs : 8 + key.length + val.length ≤ 4096) :
    ∃ fs', writeRecord env key val fs = some (.ok (nextOff fs.sb), fs') ∧
      Recorded key val fs fs' := by
  have hoff := hl.nextOff_toNat hp
  have hub := (hl.usable hp).bound
  obtain ⟨buf, c, hbuf⟩ := recBuffer_apply he { fs with sb := taken fs.sb 1 }
    (recLen key.length val.length)
  refine ⟨{ fs with
    sb := taken fs.sb 1
    img := fs.img.write (recordBytes key val) (recLen key.length val.length) (nextOff fs.sb).toNat
    clock := c + 1 }, ?_, ?_⟩
  · rw [writeRecord, bind_apply, pageAlloc_free env hl.ne_zero, Option.bind_some,
      if_neg (hl.nextOff_ne_zero hp), bind_apply, hbuf, Option.bind_some]
    dsimp only
    rw [bind_apply, he.osPwrite_apply _ _ _ (by omega), Option.bind_some, if_pos rfl, pure_apply]
  · refine ⟨rfl, rfl, rfl, hl.front_taken hp, hoff, recordAt_write _ _ _ _, fun i hi ↦ ?_, Image.write_size _ _ _ _⟩
    change ¬(front fs.sb ≤ i ∧ i < front (taken fs.sb 1)) at hi
    rw [hl.front_taken hp] at hi
    have hlen : recLen key.length val.length = 8 + key.length + val.length := rfl
    refine Image.write_out _ _ ?_
    rw [hoff]
    omega

end record

section update

variable {env : Env} {fs : Fs} {pre post : Chain} {o : UInt64} {l₁ l₂ : List Ent} {e : Ent}
  {key : Path} {val : List UInt8}

theorem locs_middle (l₁ l₂ : List Ent) (e : Ent) :
    locs (l₁ ++ e :: l₂) = locs l₁ ++ (e.loc.toList ++ locs l₂) := by
  cases h : e.loc <;> simp [locs, List.filterMap_append, h]

theorem locs_append (l l' : List Ent) : locs (l ++ l') = locs l ++ locs l' :=
  List.filterMap_append

theorem mem_locs_middle {b : UInt64} (hb : b ∈ locs (l₁ ++ l₂)) : b ∈ locs (l₁ ++ e :: l₂) := by
  rw [locs_append] at hb
  rw [locs_middle]
  rcases List.mem_append.mp hb with hb | hb
  · exact List.mem_append_left _ hb
  · exact List.mem_append_right _ (List.mem_append_right _ hb)

theorem Represents.locs_nodup {es : List Ent} (h : Represents fs (pre ++ (o, es) :: post)) :
    (locs es).Nodup := by
  have hnd := h.nodup
  rw [blocks_middle] at hnd
  exact (List.nodup_append.mp (List.nodup_append.mp hnd).2.1).1

theorem slot_mid (h : Represents fs (pre ++ (o, l₁ ++ e :: l₂) :: post)) :
    PageRep fs.img (pageAt fs o) (l₁ ++ e :: l₂) ∧
      SlotRep fs.img (pageAt fs o) ((pageAt fs o).slot l₁.length) e := by
  have hrep := h.reps (o, l₁ ++ e :: l₂) (by simp)
  exact ⟨hrep, hrep.slots _ e getElem?_self⟩

theorem ofNat32_le {a b : ℕ} (ha : a < 2 ^ 32) (hb : b < 2 ^ 32) :
    UInt32.ofNat a ≤ UInt32.ofNat b ↔ a ≤ b := by
  rw [UInt32.le_iff_toNat_le, UInt32.toNat_ofNat_of_lt' ha, UInt32.toNat_ofNat_of_lt' hb]

theorem length_mid_lt {img : Image} {pg : PagedPage} (h : PageRep img pg (l₁ ++ e :: l₂)) :
    l₁.length < slotsPerPage := by
  have := h.cap
  simp only [List.length_append, List.length_cons] at this
  omega

theorem Represents.update_inline (he : Healthy env)
    (h : Represents fs (pre ++ (o, l₁ ++ e :: l₂) :: post)) (hkey : e.key.length = key.length)
    (hl : e.loc = none) (hv : val.length ≤ e.val.length) : ∃ fs',
      updateSlot env (pageAt fs o) o l₁.length key val fs = some (.ok, fs') ∧ fs'.sb = fs.sb ∧
      Represents fs' (pre ++ (o, l₁ ++ { e with val := val } :: l₂) :: post) ∧
      Moved (pre ++ (o, l₁ ++ e :: l₂) :: post)
        (pre ++ (o, l₁ ++ { e with val := val } :: l₂) :: post) fs fs' := by
  obtain ⟨hrep, hslot⟩ := slot_mid h
  have hi := length_mid_lt hrep
  have hsmall := hslot.small
  have hb := hslot.body
  unfold Body at hb
  rw [hl] at hb
  obtain ⟨hflag, hin⟩ := hb
  have hused := hrep.used
  have hbound := hin.bound
  set pg := pageAt fs o with hpg
  set pg' : PagedPage := { pg.setSlot l₁.length { pg.slot l₁.length with
      vlen := UInt32.ofNat val.length } with
    inlineArea := arrCopy pg.inlineArea ((pg.slot l₁.length).fileOff.toNat + e.key.length)
      val.length (bytesAt val) } with hpg'
  have hspace : inlineSpace = 1392 := rfl
  have hbyte (j : ℕ) : pg'.inlineByte j =
      if (pg.slot l₁.length).fileOff.toNat + e.key.length ≤ j ∧
        j < (pg.slot l₁.length).fileOff.toNat + e.key.length + val.length ∧ j < 1392 then
      bytesAt val (j - ((pg.slot l₁.length).fileOff.toNat + e.key.length)) else pg.inlineByte j :=
    arr_arrCopy _ _ _ _ _
  have hs : pg'.slot l₁.length =
      { pg.slot l₁.length with vlen := UInt32.ofNat val.length } := setSlot_slot pg _ hi
  have hlocs : locs (l₁ ++ { e with val := val } :: l₂) = locs (l₁ ++ e :: l₂) := by
    rw [locs_middle, locs_middle]
  have hnew : SlotRep fs.img pg' (pg'.slot l₁.length) { e with val := val } := by
    rw [hs]
    refine ⟨hslot.hash, hslot.klen, rfl, by dsimp only; omega, hslot.keyPrefix, ?_⟩
    unfold Body
    rw [hl]
    refine ⟨hflag, fun j hj ↦ ?_, fun j hj ↦ ?_, ?_⟩
    · dsimp only at hj ⊢
      rw [hbyte, if_neg (by omega)]
      exact hin.keyBytes j hj
    · dsimp only at hj ⊢
      rw [hbyte, if_pos (by omega), Nat.add_sub_cancel_left]
    · change (pg.slot l₁.length).fileOff.toNat + e.key.length + val.length ≤ pg.inlineUsed.toNat
      omega
  have hrep' : PageRep fs.img pg' (l₁ ++ { e with val := val } :: l₂) := by
    refine hrep.replaceSlot rfl rfl (fun j hj ↦ setSlot_slot_ne pg _ hj) (fun j hj ↦ ?_)
      (fun _ _ _ _ ↦ rfl) le_rfl hnew fun _ ↦ ⟨hl, by rw [hs], by dsimp only; omega⟩
    have := hj hl
    rw [hbyte, if_neg (by omega)]
  obtain ⟨fs', hwb, hsb, hR, hM⟩ := h.store he fs pg' rfl rfl
    ⟨0, UInt64.zero_le, (taken_zero _).symm⟩ h.bound (fun _ _ _ ↦ rfl) le_rfl rfl hrep' (by rw [hlocs]; exact h.locs_nodup)
    (fun b hb ↦ .inl (by rwa [hlocs] at hb))
  refine ⟨fs', ?_, hsb, hR, hM⟩
  have hle : UInt32.ofNat val.length ≤ (pg.slot l₁.length).vlen := by
    rw [hslot.vlen]
    exact (ofNat32_le (by omega) (by omega)).mpr hv
  rw [updateSlot, if_pos ⟨hflag, hle⟩, ← hkey, bind_apply, hwb]
  rfl

theorem locs_value (val : List UInt8) : locs (l₁ ++ { e with val := val } :: l₂) =
    locs (l₁ ++ e :: l₂) := by
  rw [locs_middle, locs_middle]

theorem Represents.update_record (he : Healthy env)
    (h : Represents fs (pre ++ (o, l₁ ++ e :: l₂) :: post)) (hkey : e.key.length = key.length)
    {r : UInt64} (hl : e.loc = some r) (hv : val.length ≤ e.val.length) : ∃ fs',
      updateSlot env (pageAt fs o) o l₁.length key val fs = some (.ok, fs') ∧ fs'.sb = fs.sb ∧
      Represents fs' (pre ++ (o, l₁ ++ { e with val := val } :: l₂) :: post) ∧
      Moved (pre ++ (o, l₁ ++ e :: l₂) :: post)
        (pre ++ (o, l₁ ++ { e with val := val } :: l₂) :: post) fs fs' := by
  obtain ⟨hrep, hslot⟩ := slot_mid h
  have hi := length_mid_lt hrep
  have hsmall := hslot.small
  have hb := hslot.body
  unfold Body at hb
  rw [hl] at hb
  obtain ⟨hflag, hoff, hrec⟩ := hb
  have hr : r ∈ locs (l₁ ++ e :: l₂) := mem_locs (by simp) hl
  have hblock := recs_subset_blocks (locs_sub_recs pre post o hr)
  have hu := h.usable hblock
  have hub : r.toNat + 4096 < 2 ^ 63 := (h.within r hblock).2.2.trans_lt h.bound
  have hsz := hrec.size
  have hto : (r + 8 + UInt64.ofNat e.key.length).toNat = r.toNat + 8 + e.key.length := by
    have hk : (UInt64.ofNat e.key.length).toNat = e.key.length :=
      UInt64.toNat_ofNat_of_lt' (by change _ < 2 ^ 64; omega)
    rw [UInt64.toNat_add, UInt64.toNat_add, hk]
    change ((r.toNat + 8) % 2 ^ 64 + _) % 2 ^ 64 = _
    omega
  set pg := pageAt fs o with hpg
  set img' := fs.img.write (bytesAt val) val.length (r.toNat + 8 + e.key.length) with himg'
  have hout (i : ℕ) (hi : ¬InBlock r i) : img'.data i = fs.img.data i := by
    refine Image.write_out _ _ ?_
    unfold InBlock at hi
    omega
  set pg' := pg.setSlot l₁.length { pg.slot l₁.length with vlen := UInt32.ofNat val.length }
    with hpg'
  have hs : pg'.slot l₁.length =
      { pg.slot l₁.length with vlen := UInt32.ofNat val.length } := setSlot_slot pg _ hi
  have hnew : SlotRep img' pg' (pg'.slot l₁.length) { e with val := val } := by
    rw [hs]
    refine ⟨hslot.hash, hslot.klen, rfl, by dsimp only; omega, hslot.keyPrefix, ?_⟩
    unfold Body
    rw [hl]
    refine ⟨hflag, hoff, fun j hj ↦ ?_, fun j hj ↦ ?_, ?_⟩
    · dsimp only at hj ⊢
      rw [himg', Image.write_out _ _ (by omega)]
      exact hrec.keyBytes j hj
    · dsimp only at hj ⊢
      rw [himg', Image.write_in _ _ (by omega) (by omega), Nat.add_sub_cancel_left]
    · exact le_trans (by dsimp only; omega) (hsz.trans (Image.write_size _ _ _ _))
  have hapart : ∀ off ∈ locs (l₁ ++ l₂), off ≠ r := by
    have hnd := h.locs_nodup
    rw [locs_middle, hl] at hnd
    have hmid := List.nodup_middle.mp hnd
    rintro off hmem rfl
    refine (List.nodup_cons.mp hmid).1 ?_
    rwa [locs_append] at hmem
  have hrep' : PageRep img' pg' (l₁ ++ { e with val := val } :: l₂) := by
    refine hrep.replaceSlot rfl rfl (fun j hj ↦ setSlot_slot_ne pg _ hj) (fun _ _ ↦ rfl)
      (fun off ho i hi ↦ hout i ?_) (Image.write_size _ _ _ _) hnew fun hn ↦ ?_
    · exact Usable.disjoint (h.usable (recs_subset_blocks (locs_sub_recs _ _ _ (mem_locs_middle ho)))) hu
        (hapart off ho) hi
    · rw [hl] at hn
      cases hn
  obtain ⟨fs', hwb, hsb, hR, hM⟩ := h.store he
    { fs with img := img', clock := fs.clock + 1 } pg' rfl rfl
    ⟨0, UInt64.zero_le, (taken_zero _).symm⟩ h.bound (fun i hi _ ↦ hout i (hi r hr))
    (Image.write_size _ _ _ _) rfl hrep' (by rw [locs_value]; exact h.locs_nodup)
    (fun b hb ↦ .inl (by rwa [locs_value] at hb))
  refine ⟨fs', ?_, hsb, hR, hM⟩
  have hle : UInt32.ofNat val.length ≤ (pg.slot l₁.length).vlen := by
    rw [hslot.vlen]
    exact (ofNat32_le (by omega) (by omega)).mpr hv
  have hto' : ((pg.slot l₁.length).fileOff + 8 + UInt64.ofNat e.key.length).toNat =
      r.toNat + 8 + e.key.length := by rw [hoff, hto]
  rw [updateSlot, if_neg fun hc ↦ hc.1 hflag, if_pos ⟨hflag, hle⟩, ← hkey, bind_apply, discard_apply,
    he.osPwrite_apply _ _ _ (by omega), hto', ← himg']
  simp only [Option.bind_some, bind_apply]
  rw [hwb]
  rfl

theorem Represents.update_longer (he : Healthy env)
    (h : Represents fs (pre ++ (o, l₁ ++ e :: l₂) :: post)) (hkey : Alike key e.key)
    (hsmall : 8 + key.length + val.length ≤ 4096) (hl : Live fs)
    (hv : e.val.length < val.length) : ∃ fs',
      updateSlot env (pageAt fs o) o l₁.length key val fs = some (.ok, fs') ∧
      fs'.sb = taken fs.sb 1 ∧
      Represents fs' (pre ++ (o, l₁ ++ ⟨key, val, some (nextOff fs.sb)⟩ :: l₂) :: post) ∧
      Moved (pre ++ (o, l₁ ++ e :: l₂) :: post)
        (pre ++ (o, l₁ ++ ⟨key, val, some (nextOff fs.sb)⟩ :: l₂) :: post) fs fs' := by
  obtain ⟨hrep, hslot⟩ := slot_mid h
  have hi := length_mid_lt hrep
  have hsmall' := hslot.small
  obtain ⟨fs₁, hw, hrec⟩ := writeRecord_apply he h.pool hl hsmall
  have hfar : nextOff fs.sb ∉ locs (l₁ ++ e :: l₂) := fun hmem ↦ by
    have := (h.within _ (recs_subset_blocks
      (locs_sub_recs pre post o hmem))).2.2
    have := hrec.off
    omega
  set pg := pageAt fs o with hpg
  set s' : PagedSlot := { pg.slot l₁.length with
    vlen := UInt32.ofNat val.length, fileOff := nextOff fs.sb, flags := 0 } with hs'
  have hs : (pg.setSlot l₁.length s').slot l₁.length = s' := setSlot_slot pg _ hi
  have hkeep : ∀ off ∈ locs (l₁ ++ e :: l₂), ∀ i, InBlock off i →
      fs₁.img.data i = fs.img.data i := by
    intro off ho i hi
    refine hrec.data i fun hc ↦ ?_
    have := (h.within _ (recs_subset_blocks
      (locs_sub_recs pre post o ho))).2.2
    have := hi.2
    omega
  have hrep' : PageRep fs₁.img (pg.setSlot l₁.length s')
      (l₁ ++ ⟨key, val, some (nextOff fs.sb)⟩ :: l₂) := by
    refine hrep.replaceSlot rfl rfl (fun j hj ↦ setSlot_slot_ne pg _ hj) (fun _ _ ↦ rfl)
      (fun off ho ↦ hkeep off (mem_locs_middle ho)) hrec.size ?_ fun hn ↦ by cases hn
    rw [hs]
    obtain ⟨hhash, hlen, hpre⟩ := hkey
    refine ⟨hslot.hash.trans hhash, ?_, rfl, hsmall, fun j hj ↦ ?_, by simp [hs'], rfl, hrec.record⟩
    · rw [← hlen]
      exact hslot.klen
    · rw [← hpre j hj]
      exact hslot.keyPrefix j (by rw [hlen]; exact hj)
  have hlocs : locs (l₁ ++ ⟨key, val, some (nextOff fs.sb)⟩ :: l₂) =
      locs l₁ ++ (nextOff fs.sb :: locs l₂) := locs_middle _ _ _
  obtain ⟨fs', hwb, hsb, hR, hM⟩ := h.store he fs₁ (pg.setSlot l₁.length s') hrec.pcache hrec.pdir
    ⟨1, hl.one_le, hrec.sb⟩ (by rw [hrec.front]; exact hl.addr) (fun i _ hi ↦ hrec.data i hi) hrec.size
    rfl hrep' (by
      have hnd := h.locs_nodup
      rw [locs_middle] at hnd
      rw [hlocs]
      refine List.nodup_middle.mpr (List.nodup_cons.mpr ⟨fun hc ↦ hfar (mem_locs_middle ?_), ?_⟩)
      · rwa [locs_append]
      · exact hnd.sublist ((List.sublist_append_right _ _).append_left _)) (fun b hb ↦ by
      rw [hlocs] at hb
      rcases List.mem_append.mp hb with hb | hb
      · exact .inl (by rw [locs_middle]; exact List.mem_append_left _ hb)
      · rcases List.mem_cons.mp hb with rfl | hb
        · exact .inr ⟨by rw [hrec.off]; exact front_aligned h.pool, hrec.off.ge,
            by rw [hrec.off, hrec.front]⟩
        · exact .inl (by
            rw [locs_middle]
            exact List.mem_append_right _ (List.mem_append_right _ hb)))
  refine ⟨fs', ?_, hsb.trans hrec.sb, hR, hM⟩
  have hle : ¬UInt32.ofNat val.length ≤ (pg.slot l₁.length).vlen := by
    rw [hslot.vlen, ofNat32_le (by omega) (by omega)]
    omega
  rw [updateSlot, if_neg fun hc ↦ hle hc.2, if_neg fun hc ↦ hle hc.2, bind_apply, hw]
  simp only [Option.bind_some, bind_apply]
  rw [hwb]
  rfl

/-- `paged_put` on an entry it found. The key in the entry is replaced only with a longer value. -/
theorem Represents.updateSlot_apply (he : Healthy env)
    (h : Represents fs (pre ++ (o, l₁ ++ e :: l₂) :: post)) (hl : Live fs) (hkey : Alike key e.key)
    (hsmall : 8 + key.length + val.length ≤ 4096) : ∃ fs' k loc,
      k = (if val.length ≤ e.val.length then e.key else key) ∧
      updateSlot env (pageAt fs o) o l₁.length key val fs = some (.ok, fs') ∧ Cost 1 fs fs' ∧
      Represents fs' (pre ++ (o, l₁ ++ ⟨k, val, loc⟩ :: l₂) :: post) ∧
      Moved (pre ++ (o, l₁ ++ e :: l₂) :: post)
        (pre ++ (o, l₁ ++ ⟨k, val, loc⟩ :: l₂) :: post) fs fs' := by
  rcases Nat.lt_or_ge e.val.length val.length with hv | hv
  · obtain ⟨fs', hu, hsb, hR, hM⟩ := h.update_longer he hkey hsmall hl hv
    exact ⟨fs', _, _, (if_neg (by omega)).symm, hu, ⟨1, le_rfl, hl.one_le, hsb⟩, hR, hM⟩
  · cases hloc : e.loc with
    | none =>
      obtain ⟨fs', hu, hsb, hR, hM⟩ := h.update_inline he hkey.2.1 hloc hv
      exact ⟨fs', _, _, (if_pos hv).symm, hu, cost_of_sb hsb 1, hR, hM⟩
    | some r =>
      obtain ⟨fs', hu, hsb, hR, hM⟩ := h.update_record he hkey.2.1 hloc hv
      exact ⟨fs', _, _, (if_pos hv).symm, hu, cost_of_sb hsb 1, hR, hM⟩

end update

end Xxfs.IndexRep
