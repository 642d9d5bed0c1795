import Xxfs.IndexPut

namespace Xxfs.IndexRep

open Xxfs.DiskFormat Xxfs.Machine Xxfs.Allocator Xxfs.PageCache Xxfs.PagedIndex Xxfs.PageStore
open Xxfs.Hash Xxfs.Frames Xxfs.Lib.Computation Xxfs.Lib.Computation.Comp

section append

variable {env : Env} {fs : Fs} {pre post : Chain} {o : UInt64} {es : List Ent} {key : Path}
  {val : List UInt8}

theorem locs_concat (es : List Ent) (e : Ent) : locs (es ++ [e]) = locs es ++ e.loc.toList := by
  cases h : e.loc <;> simp [locs, h]

theorem slotFInline_set : slotFInline &&& slotFInline ≠ 0 := by decide

theorem newSlot_fields (pg : PagedPage) (key : Path) (val : List UInt8) :
    (newSlot pg (xxh64 key) key val).hash = xxh64 key ∧
    (newSlot pg (xxh64 key) key val).klen = UInt32.ofNat key.length ∧
    (newSlot pg (xxh64 key) key val).vlen = UInt32.ofNat val.length ∧
    (newSlot pg (xxh64 key) key val).flags &&& slotFInline = 0 ∧
    ∀ j < min key.length keyPrefixLen,
      (arr (newSlot pg (xxh64 key) key val).keyPrefix).2 j = bytesAt key j := by
  refine ⟨rfl, rfl, rfl, UInt8.zero_and, fun j hj ↦ ?_⟩
  have hlen : keyPrefixLen = 16 := rfl
  rw [newSlot]
  dsimp only
  rw [arr_arrCopy, if_pos (by omega), Nat.sub_zero]

theorem ofNat32_toNat {a : ℕ} (h : a ≤ 4096) : (UInt32.ofNat a).toNat = a :=
  UInt32.toNat_ofNat_of_lt' (by change a < 2 ^ 32; omega)

theorem count_succ {img : Image} {pg : PagedPage} (h : PageRep img pg es)
    (hroom : es.length < slotsPerPage) : (pg.count + 1).toNat = pg.count.toNat + 1 := by
  have hc := h.count
  have hs : slotsPerPage = 56 := rfl
  rw [UInt16.toNat_add]
  change (_ + 1) % 2 ^ 16 = _
  omega

theorem inlineUsed_add {img : Image} {pg : PagedPage} (h : PageRep img pg es) {a : ℕ}
    (ha : a ≤ 4096) : (pg.inlineUsed + UInt32.ofNat a).toNat = pg.inlineUsed.toNat + a := by
  have hu := h.used
  have hs : inlineSpace = 1392 := rfl
  rw [UInt32.toNat_add, ofNat32_toNat ha]
  omega

theorem Represents.append_inline (he : Healthy env) (h : Represents fs (pre ++ (o, es) :: post))
    (hroom : es.length < slotsPerPage) (hsmall : 8 + key.length + val.length ≤ 4096)
    (hfit : (pageAt fs o).inlineUsed.toNat + (key.length + val.length) ≤ inlineSpace) : ∃ fs',
      appendSlot env (pageAt fs o) o (xxh64 key) key val fs = some (.ok, fs') ∧ fs'.sb = fs.sb ∧
      Represents fs' (pre ++ (o, es ++ [⟨key, val, none⟩]) :: post) ∧
      Moved (pre ++ (o, es) :: post) (pre ++ (o, es ++ [⟨key, val, none⟩]) :: post) fs fs' := by
  have hrep : PageRep fs.img (pageAt fs o) es := h.reps (o, es) (by simp)
  have hcount := hrep.count
  have hadd := inlineUsed_add hrep (show key.length + val.length ≤ 4096 by omega)
  have hspace : inlineSpace = 1392 := rfl
  set pg := pageAt fs o with hpg
  obtain ⟨hh, hkl, hvl, hfl, hpre⟩ := newSlot_fields pg key val
  set s : PagedSlot := { newSlot pg (xxh64 key) key val with
    fileOff := pg.inlineUsed.toUInt64, flags := slotFInline } with hs
  set pg' : PagedPage := { pg.setSlot pg.count.toNat s with
    count := pg.count + 1
    inlineUsed := pg.inlineUsed + UInt32.ofNat (key.length + val.length)
    inlineArea := storeInline pg.inlineArea pg.inlineUsed.toNat key val } with hpg'
  have hbyte (j : ℕ) : pg'.inlineByte j =
      if pg.inlineUsed.toNat + key.length ≤ j ∧
        j < pg.inlineUsed.toNat + key.length + val.length ∧ j < 1392 then
        bytesAt val (j - (pg.inlineUsed.toNat + key.length))
      else if pg.inlineUsed.toNat ≤ j ∧ j < pg.inlineUsed.toNat + key.length ∧ j < 1392 then
        bytesAt key (j - pg.inlineUsed.toNat) else pg.inlineByte j := by
    change (arr (storeInline _ _ _ _)).2 j = _
    rw [storeInline, arr_arrCopy, arr_arrCopy]
    rfl
  have hslot : pg'.slot es.length = s := by
    rw [← hcount]
    exact setSlot_slot pg s (by omega)
  have hoff : s.fileOff.toNat = pg.inlineUsed.toNat := UInt32.toNat_toUInt64 _
  have hnew : SlotRep fs.img pg' (pg'.slot es.length) ⟨key, val, none⟩ := by
    rw [hslot]
    refine ⟨hh, hkl, hvl, hsmall, hpre, slotFInline_set, fun j hj ↦ ?_, fun j hj ↦ ?_, ?_⟩
    · dsimp only at hj ⊢
      rw [hoff, hbyte, if_neg (by omega), if_pos (by omega), Nat.add_sub_cancel_left]
    · dsimp only at hj ⊢
      rw [hoff, hbyte, if_pos (by omega), Nat.add_sub_cancel_left]
    · rw [hoff]
      change _ ≤ (pg.inlineUsed + UInt32.ofNat (key.length + val.length)).toNat
      dsimp only
      omega
  have hrep' : PageRep fs.img pg' (es ++ [⟨key, val, none⟩]) := by
    refine hrep.append (count_succ hrep hroom) hroom ?_ ?_ (fun j hj ↦ ?_) (fun j hj ↦ ?_)
      (fun _ _ _ _ ↦ rfl) le_rfl hnew fun _ ↦ ?_
    · change _ ≤ (pg.inlineUsed + UInt32.ofNat (key.length + val.length)).toNat
      omega
    · change (pg.inlineUsed + UInt32.ofNat (key.length + val.length)).toNat ≤ _
      omega
    · exact setSlot_slot_ne pg s (by omega)
    · rw [hbyte, if_neg (by omega), if_neg (by omega)]
    · rw [hslot, hoff]
  have hlocs : locs (es ++ [⟨key, val, none⟩]) = locs es := by
    rw [locs_concat]
    exact List.append_nil _
  obtain ⟨fs', hwb, hsb, hR, hM⟩ := h.store he fs pg' rfl rfl
    ⟨0, UInt64.zero_le, (taken_zero _).symm⟩ h.bound (fun _ _ _ ↦ rfl) le_rfl rfl hrep' (by rw [hlocs]; exact h.locs_nodup)
    (fun b hb ↦ .inl (by rwa [hlocs] at hb))
  refine ⟨fs', ?_, hsb, hR, hM⟩
  rw [appendSlot, if_pos (by rw [hadd]; exact hfit), bind_apply, hwb]
  rfl

theorem Represents.append_record (he : Healthy env) (h : Represents fs (pre ++ (o, es) :: post))
    (hroom : es.length < slotsPerPage) (hsmall : 8 + key.length + val.length ≤ 4096)
    (hfit : ¬(pageAt fs o).inlineUsed.toNat + (key.length + val.length) ≤ inlineSpace)
    (hl : Live fs) : ∃ fs',
      appendSlot env (pageAt fs o) o (xxh64 key) key val fs = some (.ok, fs') ∧
      fs'.sb = taken fs.sb 1 ∧
      Represents fs' (pre ++ (o, es ++ [⟨key, val, some (nextOff fs.sb)⟩]) :: post) ∧
      Moved (pre ++ (o, es) :: post)
        (pre ++ (o, es ++ [⟨key, val, some (nextOff fs.sb)⟩]) :: post) fs fs' := by
  have hrep : PageRep fs.img (pageAt fs o) es := h.reps (o, es) (by simp)
  have hcount := hrep.count
  have hadd := inlineUsed_add hrep (show key.length + val.length ≤ 4096 by omega)
  obtain ⟨fs₁, hw, hrec⟩ := writeRecord_apply he h.pool hl hsmall
  have hbelow {b : UInt64} (hb : b ∈ locs es) : b.toNat + 4096 ≤ front fs.sb :=
    (h.within b (recs_subset_blocks (locs_sub_recs _ _ _ hb))).2.2
  have hfar : nextOff fs.sb ∉ locs es := fun hmem ↦ by
    have := hbelow hmem
    have := hrec.off
    omega
  set pg := pageAt fs o with hpg
  obtain ⟨hh, hkl, hvl, hfl, hpre⟩ := newSlot_fields pg key val
  set s : PagedSlot := { newSlot pg (xxh64 key) key val with fileOff := nextOff fs.sb } with hs
  set pg' : PagedPage := { pg.setSlot pg.count.toNat s with count := pg.count + 1 } with hpg'
  have hslot : pg'.slot es.length = s := by
    rw [← hcount]
    exact setSlot_slot pg s (by omega)
  have hrep' : PageRep fs₁.img pg' (es ++ [⟨key, val, some (nextOff fs.sb)⟩]) := by
    refine hrep.append (count_succ hrep hroom) hroom le_rfl hrep.used
      (fun j hj ↦ setSlot_slot_ne pg s (by omega)) (fun _ _ ↦ rfl) (fun b hb i hi ↦ ?_) hrec.size
      ?_ fun hn ↦ by cases hn
    · refine hrec.data i fun hc ↦ ?_
      have := hbelow hb
      have := hi.2
      omega
    · rw [hslot]
      exact ⟨hh, hkl, hvl, hsmall, hpre, hfl, rfl, hrec.record⟩
  have hlocs : locs (es ++ [⟨key, val, some (nextOff fs.sb)⟩]) = locs es ++ [nextOff fs.sb] :=
    locs_concat _ _
  obtain ⟨fs', hwb, hsb, hR, hM⟩ := h.store he fs₁ pg' hrec.pcache hrec.pdir
    ⟨1, hl.one_le, hrec.sb⟩ (by rw [hrec.front]; exact hl.addr)
    (fun i _ hi ↦ hrec.data i hi) hrec.size rfl hrep' (by
      rw [hlocs]
      exact List.Nodup.append h.locs_nodup (List.nodup_singleton _)
        (List.disjoint_singleton.mpr hfar)) (fun b hb ↦ by
      rw [hlocs] at hb
      rcases List.mem_append.mp hb with hb | hb
      · exact .inl hb
      · obtain rfl := List.mem_singleton.mp hb
        exact .inr ⟨by rw [hrec.off]; exact front_aligned h.pool, hrec.off.ge,
          by rw [hrec.off, hrec.front]⟩)
  refine ⟨fs', ?_, hsb.trans hrec.sb, hR, hM⟩
  rw [appendSlot, if_neg (by rw [hadd]; exact hfit), bind_apply, hw]
  simp only [Option.bind_some, bind_apply]
  rw [hwb]
  rfl

theorem Represents.appendSlot_apply (he : Healthy env)
    (h : Represents fs (pre ++ (o, es) :: post)) (hl : Live fs) (hroom : es.length < slotsPerPage)
    (hsmall : 8 + key.length + val.length ≤ 4096) : ∃ fs' loc,
      appendSlot env (pageAt fs o) o (xxh64 key) key val fs = some (.ok, fs') ∧ Cost 1 fs fs' ∧
      Represents fs' (pre ++ (o, es ++ [⟨key, val, loc⟩]) :: post) ∧
      Moved (pre ++ (o, es) :: post) (pre ++ (o, es ++ [⟨key, val, loc⟩]) :: post) fs fs' := by
  by_cases hfit : (pageAt fs o).inlineUsed.toNat + (key.length + val.length) ≤ inlineSpace
  · obtain ⟨fs', ha, hsb, hR, hM⟩ := h.append_inline he hroom hsmall hfit
    exact ⟨fs', _, ha, cost_of_sb hsb 1, hR, hM⟩
  · obtain ⟨fs', ha, hsb, hR, hM⟩ := h.append_record he hroom hsmall hfit hl
    exact ⟨fs', _, ha, ⟨1, le_rfl, hl.one_le, hsb⟩, hR, hM⟩

end append

section overflow

variable {env : Env} {fs : Fs} {pre : Chain} {o : UInt64} {es : List Ent}

theorem PageRep.relink {img : Image} {pg : PagedPage} (h : PageRep img pg es) (next : UInt64) :
    PageRep img { pg with overflowNext := next } es :=
  ⟨h.count, h.cap, h.used, fun i e he ↦ (h.slots i e he).keep (fun _ ↦ le_rfl) (fun _ _ _ _ ↦ rfl)
    (fun _ _ _ _ ↦ rfl) le_rfl, h.apart⟩

theorem pageRep_empty (img : Image) (depth : UInt16) : PageRep img (emptyPage depth) [] := by
  refine ⟨rfl, Nat.zero_le _, Nat.zero_le _, fun i e he ↦ ?_, fun i j e e' _ he ↦ ?_⟩
  · cases he
  · cases he

theorem Links.snoc {fs' : Fs} {off : UInt64} (h : Links fs (pre ++ [(o, es)]))
    (hpre : ∀ q ∈ offs pre, pageAt fs' q = pageAt fs q)
    (ho : (pageAt fs' o).overflowNext = off) (hoff : (pageAt fs' off).overflowNext = 0) :
    Links fs' (pre ++ [(o, es), (off, [])]) := by
  induction pre with
  | nil => exact ⟨ho, hoff, trivial⟩
  | cons p pre ih =>
    refine ⟨?_, ih h.2 fun q hq ↦ hpre q (List.mem_cons_of_mem _ hq)⟩
    rw [hpre p.1 List.mem_cons_self, h.1]
    cases pre <;> rfl

theorem Represents.addOverflow_apply (he : Healthy env) (h : Represents fs (pre ++ [(o, es)]))
    (hl : Live fs) : ∃ fs',
      addOverflow env (pageAt fs o) o fs = some (some (.ok (nextOff fs.sb)), fs') ∧ Cost 1 fs fs' ∧
      Represents fs' (pre ++ [(o, es), (nextOff fs.sb, [])]) ∧
      Moved (pre ++ [(o, es)]) (pre ++ [(o, es), (nextOff fs.sb, [])]) fs fs' := by
  have hoff := hl.nextOff_toNat h.pool
  have hu := hl.usable h.pool
  have hfront := hl.front_taken h.pool
  set off := nextOff fs.sb with hdef
  set pg := pageAt fs o with hpg
  have hfar : off ∉ blocks (pre ++ [(o, es)]) := fun hmem ↦ by
    have := (h.within off hmem).2.2
    omega
  have ho : o ∈ offs (pre ++ [(o, es)]) := mid_mem_offs
  have hne : o ≠ off := fun heq ↦ hfar (heq ▸ offs_subset_blocks ho)
  have hk₁ : PagesOk { fs with sb := taken fs.sb 1 } (offs (pre ++ [(o, es)])) :=
    h.pages.of_data rfl fun _ _ _ _ ↦ rfl
  obtain ⟨fs₂, hwb, hk₂, hst₂⟩ := pageWriteback_apply he hk₁ ho { pg with overflowNext := off }
  obtain ⟨fs₃, hnew, hk₃, hst₃⟩ := newPage_apply he hk₂ hu
    (fun hmem ↦ hfar (offs_subset_blocks hmem)) (emptyPage pg.localDepth)
  have hsb : fs₃.sb = taken fs.sb 1 := hst₃.sb.trans hst₂.sb
  have hpages (q : UInt64) (hq : q ∈ offs (pre ++ [(o, es)])) (hqo : q ≠ o) :
      pageAt fs₃ q = pageAt fs q := by
    rw [hst₃.pages q hq fun heq ↦ hfar (heq ▸ offs_subset_blocks hq), hst₂.pages q hq hqo]
    rfl
  have ho₃ : pageAt fs₃ o = { pg with overflowNext := off } := by
    rw [hst₃.pages o ho hne, hst₂.page]
  have hdata (i : ℕ) (hio : ¬InBlock o i) (hin : ¬InBlock off i) :
      fs₃.img.data i = fs.img.data i := by
    rw [hst₃.data i hin, hst₂.data i hio]
  have hsize : fs.img.size ≤ fs₃.img.size := hst₂.size.trans hst₃.size
  have hrecs {b : UInt64} (hb : b ∈ recs (pre ++ [(o, es)])) {i : ℕ} (hi : InBlock b i) :
      fs₃.img.data i = fs.img.data i := by
    refine hdata i (h.rec_outside hb hi o ho) ?_
    exact (h.usable (recs_subset_blocks hb)).disjoint hu
      (fun heq ↦ hfar (heq ▸ recs_subset_blocks hb)) hi
  have hoffs : offs (pre ++ [(o, es), (off, [])]) = offs (pre ++ [(o, es)]) ++ [off] := by simp [offs]
  have hblocks : recs (pre ++ [(o, es), (off, [])]) = recs (pre ++ [(o, es)]) := by
    simp [recs, locs]
  have hmem {b : UInt64} (hb : b ∈ blocks (pre ++ [(o, es), (off, [])])) :
      b ∈ blocks (pre ++ [(o, es)]) ∨ b = off := by
    rw [blocks, hoffs, hblocks] at hb
    rw [blocks]
    simp only [List.mem_append, List.mem_singleton] at hb ⊢
    tauto
  refine ⟨fs₃, ?_, ⟨1, le_rfl, hl.one_le, hsb⟩, ⟨by simp, ?_, ?_, ?_, by rw [hoffs]; exact hk₃, fun p hp ↦ ?_, ?_, ?_,
    fun b hb ↦ ?_⟩, ⟨1, hl.one_le, hsb⟩, fun b hb ↦ ?_, fun i hi hf ↦ ?_, hsize⟩
  · obtain ⟨ok, s₁, hpw, hrest⟩ := of_bind hnew
    cases ok with
    | false => cases hrest
    | true =>
      obtain ⟨u, s₂, hinv, hret⟩ := of_bind hrest
      obtain ⟨-, rfl⟩ := Prod.mk.inj (Option.some.inj hret)
      rw [addOverflow, bind_apply, pageAlloc_free env hl.ne_zero, Option.bind_some,
        if_neg (hl.nextOff_ne_zero h.pool), bind_apply, hwb, Option.bind_some, bind_apply, hpw,
        Option.bind_some, if_pos rfl, bind_apply, hinv]
      rfl
  · have hhead : headOff (pre ++ [(o, es), (off, [])]) = headOff (pre ++ [(o, es)]) := by
      cases pre <;> rfl
    rw [hst₃.pdir, hst₂.pdir, hhead]
    exact h.dir
  · rw [hsb]
    exact taken_ok hl.one_le h.pool
  · rw [hsb, hfront]
    exact hl.addr
  · have hcase : p ∈ pre ++ [(o, es)] ∨ p = (off, []) := by
      simp only [List.mem_append, List.mem_cons, List.not_mem_nil, or_false] at hp ⊢
      tauto
    rcases hcase with hp | rfl
    · have hrep := (h.reps p hp).congr (fun b hb i hi ↦ hrecs (mem_recs hp hb) hi) hsize
      by_cases hpo : p.1 = o
      · rw [hpo] at hrep ⊢
        rw [ho₃]
        exact hrep.relink off
      · rw [hpages p.1 (mem_offs hp) hpo]
        exact hrep
    · dsimp only
      rw [hst₃.page]
      exact pageRep_empty _ _
  · have hnd : (offs (pre ++ [(o, es)])).Nodup := (List.nodup_append.mp h.nodup).1
    refine h.links.snoc (fun q hq ↦ hpages q ?_ ?_) (by rw [ho₃]) (by rw [hst₃.page]; rfl)
    · rw [offs_append]
      exact List.mem_append_left _ hq
    · rintro rfl
      rw [offs_append] at hnd
      exact (List.nodup_append.mp hnd).2.2 q hq q (by simp) rfl
  · rw [blocks, hoffs, hblocks, List.append_assoc]
    refine List.nodup_middle.mpr (List.nodup_cons.mpr ⟨hfar, h.nodup⟩)
  · have hD : fs₃.sb.sDataOff = fs.sb.sDataOff := by rw [hsb]; rfl
    rw [hD, hsb, hfront]
    rcases hmem hb with hb | rfl
    · obtain ⟨h₁, h₂, h₃⟩ := h.within b hb
      exact ⟨h₁, h₂, by omega⟩
    · refine ⟨hu.aligned, ?_, by omega⟩
      rw [hoff, front]
      omega
  · rcases hmem hb with hb | rfl
    · exact .inl hb
    · exact .inr ⟨by omega, by rw [hsb, hfront]; omega⟩
  · refine hdata i (hi o (offs_subset_blocks ho)) fun hin ↦ hf ?_
    obtain ⟨_, _⟩ := hin
    rw [hsb, hfront]
    omega

end overflow

end Xxfs.IndexRep
