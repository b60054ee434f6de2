import VectorLedger.Pages
import VectorLedger.Theorems.WalFrames

/-! The slots of a page: where a reader finds a row, and which pages give back the rows that were written. -/

namespace VectorLedger.Pages

open PageHeader (size)
open List Wal

/-! ### Windows -/

section Windows
variable {buf data : Bytes} {start i n : Nat}

theorem window_drop : window (buf.drop i) start n = window buf (i + start) n := by rw [window, window, drop_drop]

theorem length_patch (h : start + data.length ≤ buf.length) : (patch buf start data).length = buf.length := by
  simp only [patch, length_append, length_take, length_drop]
  omega

theorem patch_part (a b c : Bytes) (h : b.length = data.length) (hstart : start = a.length) :
    patch (a ++ (b ++ c)) start data = a ++ (data ++ c) := by
  rw [hstart, patch, take_left' rfl, drop_append, drop_eq_nil_of_le (Nat.le_add_right _ _), Nat.add_sub_cancel_left,
    nil_append, drop_left' h]

theorem window_part (a b c : Bytes) (hstart : start = a.length) (h : n = b.length) :
    window (a ++ (b ++ c)) start n = b := by
  rw [hstart, h, window, drop_left' rfl, take_left' rfl]

end Windows

/-! ### Reading -/

def entryAt (body : Bytes) (i : Nat) : SlotEntry :=
  ⟨.ofNat (leNat (window body (4 * i) 2)), .ofNat (leNat (window body (4 * i + 2) 2))⟩

/-- The entry of a slot and the row that it tells are inside of the body. -/
def SlotInside (body : Bytes) (i : Nat) : Prop :=
  4 * (i + 1) ≤ body.length ∧ (entryAt body i).offset.toNat + (entryAt body i).length.toNat ≤ body.length

instance (body : Bytes) (i : Nat) : Decidable (SlotInside body i) := inferInstanceAs (Decidable (_ ∧ _))

def rowAt (body : Bytes) (i : Nat) : Bytes := window body (entryAt body i).offset.toNat (entryAt body i).length.toNat

namespace Page

variable {p : Page} {slotId : UInt16} {i : Nat}

theorem readSlotEntry_eq (hsize : size ≤ p.buf.length) (h : i < p.header.slotCount.toNat) : p.readSlotEntry i =
      if 4 * (i + 1) ≤ (p.buf.drop size).length then some (some (entryAt (p.buf.drop size) i)) else none := by
  unfold readSlotEntry slice entryAt
  rw [if_neg (Nat.not_le.2 h), window_drop, window_drop, length_drop]
  simp only [slotDirEntrySize, Nat.mul_comm i 4, ← Nat.add_assoc]
  by_cases hinside : 4 * (i + 1) ≤ p.buf.length - size
  · rw [if_pos hinside, if_pos (by omega), if_pos (by omega)]
    rfl
  · rw [if_neg hinside, if_neg (show ¬size + 4 * i + 2 + 2 ≤ p.buf.length by omega)]
    split <;> rfl

theorem readSlot_eq (hsize : size ≤ p.buf.length) (h : slotId.toNat < p.header.slotCount.toNat) : p.readSlot slotId =
      if SlotInside (p.buf.drop size) slotId.toNat then some (.ok (rowAt (p.buf.drop size) slotId.toNat)) else none := by
  unfold readSlot
  rw [readSlotEntry_eq hsize h]
  by_cases hinside : SlotInside (p.buf.drop size) slotId.toNat
  · have hrow := hinside.2
    rw [length_drop] at hrow
    rw [if_pos hinside, if_pos hinside.1, rowAt, window_drop]
    change Except.ok <$> slice _ _ _ = _
    rw [slice, if_pos (by omega)]
    rfl
  · rw [if_neg hinside]
    split
    · next hentry =>
      change Except.ok <$> slice _ _ _ = _
      rw [slice, if_neg fun hrow => hinside ⟨hentry, by rw [length_drop]; omega⟩]
      rfl
    · rfl

theorem readSlot_unknown (h : p.header.slotCount.toNat ≤ slotId.toNat) :
    p.readSlot slotId = some (.error (.slotNotFound p.header.pageId slotId)) := by
  unfold readSlot readSlotEntry
  rw [if_pos h]
  rfl

section Accepted
variable (crc32 : Bytes → UInt32) (blake3 : Bytes → Hash) (bytes : Bytes)

theorem fromBytes_eq_ok {page : Page} : fromBytes crc32 blake3 bytes = .ok page ↔
    size ≤ bytes.length ∧ (PageHeader.ofBytes bytes).validateMagic = true ∧
      page = ⟨bytes, .ofBytes bytes, true, bytes.length⟩ ∧ page.computeCrc crc32 = page.header.crc32 ∧
      blake3 (bytes.drop size) = page.header.contentHash := by
  unfold fromBytes
  dsimp only
  split_ifs <;> grind

/-- Slots are read without a panic if and only if every slot that the header counts is inside of the page. -/
theorem read_inside_iff (page : Page) (accepted : fromBytes crc32 blake3 bytes = .ok page) :
    (∀ slotId, ∃ r, page.readSlot slotId = some r ∧ ∀ row, r = .ok row → row <:+: bytes.drop size) ↔
      ∀ i < (PageHeader.ofBytes bytes).slotCount.toNat, SlotInside (bytes.drop size) i := by
  obtain ⟨hsize, -, rfl, -⟩ := (fromBytes_eq_ok crc32 blake3 bytes).1 accepted
  constructor
  · intro h i hi
    have hid : (UInt16.ofNat i).toNat = i := UInt16.toNat_ofNat_of_lt' (hi.trans (UInt16.toNat_lt _))
    obtain ⟨r, hread, -⟩ := h (.ofNat i)
    rw [readSlot_eq hsize (by rwa [hid]), hid] at hread
    by_contra hout
    rw [if_neg hout] at hread
    cases hread
  · intro h slotId
    rcases Nat.lt_or_ge slotId.toNat (PageHeader.ofBytes bytes).slotCount.toNat with hi | hi
    · refine ⟨_, (readSlot_eq hsize hi).trans (if_pos (h _ hi)), ?_⟩
      rintro row ⟨⟩
      exact ( take_prefix _ _).isInfix.trans (drop_suffix _ _).isInfix
    · exact ⟨_, readSlot_unknown hi, nofun⟩

end Accepted

/-- A page of 130 bytes with one slot, under checks that are always met. -/
def Sample.oneSlot (offset : Nat) : Page :=
  let header := { PageHeader.new 0 0 130 with slotCount := 1 }
  ⟨header.toBytes ++ (leBytes 2 offset ++ replicate 62 0), header, true, 130⟩

theorem read_inside_first : let page := Sample.oneSlot 4
    fromBytes (fun _ => 0) (fun _ => zeroHash) page.buf = .ok page ∧
      ∀ slotId, ∃ r, page.readSlot slotId = some r ∧ ∀ row, r = .ok row → row <:+: page.buf.drop size :=
  have accepted : fromBytes (fun _ => 0) (fun _ => zeroHash) (Sample.oneSlot 4).buf = .ok (Sample.oneSlot 4) := by
    decide +kernel
  ⟨accepted, (read_inside_iff _ _ _ _ accepted).2 (by decide +kernel)⟩

theorem slot_outside : let page := Sample.oneSlot 65535
    fromBytes (fun _ => 0) (fun _ => zeroHash) page.buf = .ok page ∧ page.readSlot 0 = none := by
  decide +kernel

end Page

/-! ### Writing -/

def total (rows : List Bytes) : Nat := (rows.map length).sum

theorem total_append (rows rows' : List Bytes) : total (rows ++ rows') = total rows + total rows' := by simp [total]

theorem total_cons (row : Bytes) (rows : List Bytes) : total (row :: rows) = row.length + total rows := by simp [total]

theorem length_flatten_reverse (rows : List Bytes) : rows.reverse.flatten.length = total rows := by
  rw [length_flatten, map_reverse, sum_reverse, total]

/-- The entries of rows that stand one before the other, the first one up to `top`. -/
def entries (top : Nat) : List Bytes → Bytes
  | [] => []
  | row :: rows => leBytes 2 (top - row.length) ++ (leBytes 2 row.length ++ entries (top - row.length) rows)

theorem length_entries (top : Nat) (rows : List Bytes) : (entries top rows).length = 4 * rows.length := by
  induction rows generalizing top with
  | nil => rfl
  | cons row rows ih =>
    simp only [entries, length_append, length_leBytes, length_cons, ih]
    omega

theorem entries_append (top : Nat) (rows rows' : List Bytes) :
    entries top (rows ++ rows') = entries top rows ++ entries (top - total rows) rows' := by
  induction rows generalizing top with
  | nil => rfl
  | cons row rows ih => simp only [cons_append, entries, ih, total_cons, append_assoc, Nat.sub_sub]

/-- The body of a page of `n` bytes: the entries of the rows from the start, the rows from the end, zeros between them. -/
def bodyOf (n : Nat) (rows : List Bytes) : Bytes :=
  entries n rows ++ (replicate (n - 4 * rows.length - total rows) 0 ++ rows.reverse.flatten)

section Body
variable {n : Nat} {rows : List Bytes}

theorem length_bodyOf (fits : 4 * rows.length + total rows ≤ n) : (bodyOf n rows).length = n := by
  simp only [bodyOf, length_append, length_entries, length_replicate, length_flatten_reverse]
  omega

theorem ofNat_leNat_leBytes (n : Nat) : UInt16.ofNat (leNat (leBytes 2 n)) = .ofNat n := by
  apply UInt16.toNat_inj.1
  simp only [leBytes, leNat, UInt16.toNat_ofNat', UInt8.toNat_ofNat']
  omega

theorem entryAt_bodyOf (before after : List Bytes) (row : Bytes) :
    entryAt (bodyOf n (before ++ row :: after)) before.length =
      ⟨.ofNat (n - total before - row.length), .ofNat row.length⟩ := by
  have hbefore : 4 * before.length = (entries n before).length := (length_entries n before).symm
  unfold entryAt bodyOf
  rw [entries_append, entries, append_assoc, append_assoc, window_part _ _ _ hbefore (length_leBytes 2 _).symm,
    ← append_assoc (entries n before), append_assoc (leBytes 2 row.length),
    window_part _ _ _ (by rw [length_append, length_leBytes, hbefore]) (length_leBytes 2 _).symm, ofNat_leNat_leBytes,
    ofNat_leNat_leBytes]

theorem row_bodyOf (before after : List Bytes) (row : Bytes)
    (fits : 4 * (before ++ row :: after).length + total (before ++ row :: after) ≤ n) :
    window (bodyOf n (before ++ row :: after)) (n - total before - row.length) row.length = row := by
  have hlength := length_bodyOf fits
  rw [bodyOf, reverse_append, reverse_cons, flatten_append, flatten_append, flatten_singleton, append_assoc,
    ← append_assoc, ← append_assoc] at hlength ⊢
  have hend : (row ++ before.reverse.flatten).length = row.length + total before := by
    rw [length_append, length_flatten_reverse]
  rw [length_append, hend] at hlength
  exact window_part _ _ _ (by omega) rfl

theorem gap_bodyOf {i : Nat} (h : 4 * rows.length ≤ i) (hi : i < n - total rows) : window (bodyOf n rows) i 1 = [0] := by
  obtain ⟨k, rfl⟩ := Nat.exists_eq_add_of_le h
  have hentries := length_entries n rows
  rw [window, bodyOf, ← hentries, drop_append, drop_eq_nil_of_le (Nat.le_add_right _ _),
    Nat.add_sub_cancel_left, nil_append, drop_append_of_le_length (by rw [length_replicate]; omega), drop_replicate,
    take_append_of_le_length (by rw [length_replicate]; omega), take_replicate, Nat.min_eq_left (by omega)]
  rfl

/-- The row goes before the other ones, and its entry behind the other ones. -/
theorem patch_bodyOf {front row : Bytes} (hfront : front.length = size)
    (fits : 4 * (rows.length + 1) + (total rows + row.length) ≤ n) :
    patch (patch (patch (front ++ bodyOf n rows) (size + (n - total rows - row.length)) row) (size + 4 * rows.length)
        (leBytes 2 (n - total rows - row.length))) (size + 4 * rows.length + 2) (leBytes 2 row.length) =
      front ++ bodyOf n (rows ++ [row]) := by
  obtain ⟨gap, hgap⟩ : ∃ gap, n - 4 * rows.length - total rows = 2 + (2 + (gap + row.length)) :=
    ⟨n - 4 * rows.length - total rows - 4 - row.length, by omega⟩
  have hstart : (front ++ entries n rows).length = size + 4 * rows.length := by rw [length_append, hfront, length_entries]
  have hzeros (k : Nat) : (replicate k (0 : UInt8)).length = k := length_replicate
  have hbytes (k : Nat) : (leBytes 2 k).length = 2 := length_leBytes 2 k
  have hnew : n - 4 * (rows ++ [row]).length - total (rows ++ [row]) = gap := by
    rw [total_append, total_cons, length_append, length_singleton]
    change _ - (_ + (_ + 0)) = _
    omega
  have hbody : front ++ bodyOf n rows = front ++ entries n rows ++ replicate 2 0 ++ replicate 2 0 ++ replicate gap 0 ++
      (replicate row.length 0 ++ rows.reverse.flatten) := by
    rw [bodyOf, hgap]
    simp only [replicate_add, append_assoc]
  rw [hbody, patch_part _ _ _ (hzeros _) (by simp only [length_append, hfront, length_entries, hzeros]; omega)]
  rw [append_assoc (_ ++ replicate 2 0), append_assoc, append_assoc, patch_part _ _ _ ((hzeros 2).trans (hbytes _).symm) hstart.symm]
  rw [← append_assoc, patch_part _ _ _ ((hzeros 2).trans (hbytes _).symm) (by rw [length_append, hstart, hbytes])]
  rw [bodyOf, hnew, entries_append]
  simp only [entries, append_assoc, reverse_append, reverse_singleton, flatten_append, flatten_singleton, append_nil]

end Body

namespace Page

/-- The page is laid out with these rows in its slots. -/
structure Holds (p : Page) (rows : List Bytes) : Prop where
  unsealed : p.isSealed = false
  magic : p.header.validateMagic = true
  size_le : size ≤ p.pageSize
  buf : ∃ front, front.length = size ∧ p.buf = front ++ bodyOf (p.pageSize - size) rows
  count : p.header.slotCount.toNat = rows.length
  free : p.header.freeBytes.toNat + (4 * rows.length + total rows) = (p.pageSize - size) % 2 ^ 16

namespace Holds

variable {p : Page} {rows : List Bytes} {row : Bytes} (h : p.Holds rows)
include h

theorem fits : 4 * rows.length + total rows ≤ p.pageSize - size := by
  have hfree := h.free
  omega

theorem body : p.buf.drop size = bodyOf (p.pageSize - size) rows := by
  obtain ⟨front, hfront, hbuf⟩ := h.buf
  rw [hbuf, drop_left' hfront]

theorem body_length : (p.buf.drop size).length = p.pageSize - size := by rw [h.body, length_bodyOf h.fits]

theorem length : p.buf.length = p.pageSize := by
  obtain ⟨front, hfront, hbuf⟩ := h.buf
  rw [hbuf, length_append, hfront, length_bodyOf h.fits, Nat.add_sub_cancel' h.size_le]

theorem readSlotEntry {before after : List Bytes} (hrows : rows = before ++ row :: after) : p.readSlotEntry before.length =
      some (some ⟨.ofNat (p.pageSize - size - total before - row.length), .ofNat row.length⟩) := by
  have hfits := h.fits
  subst hrows
  rw [length_append, length_cons] at hfits
  rw [readSlotEntry_eq (h.length ▸ h.size_le) (by rw [h.count]; simp), if_pos (by rw [h.body_length]; omega), h.body,
    entryAt_bodyOf]

theorem row_lt (hrow : row ∈ rows) : row.length < 2 ^ 16 := by
  obtain ⟨before, after, rfl⟩ := append_of_mem hrow
  have hfree := h.free
  rw [total_append, total_cons] at hfree
  omega

theorem slotLengths (before after : List Bytes) (hrows : rows = before ++ after) :
    p.slotLengths before.length = some (total before) := by
  induction before using reverseRecOn generalizing after with
  | nil => rfl
  | append_singleton before row ih =>
    rw [append_assoc, singleton_append] at hrows
    rw [length_append, length_singleton, Page.slotLengths, ih _ hrows, h.readSlotEntry hrows, total_append]
    change some (_ + (UInt16.ofNat _).toNat) = _
    rw [UInt16.toNat_ofNat_of_lt' (h.row_lt (by simp [hrows]))]
    rfl

theorem writeSlot_full (hfull : p.header.freeBytes.toNat < 4 + row.length) : ∃ e, p.writeSlot row = some (.error e, p) := by
  unfold writeSlot slotDirEntrySize
  rw [if_neg (by simp [h.unsealed]), if_pos hfull]
  exact ⟨_, rfl⟩

theorem writeSlot_ok (hfree : 4 + row.length ≤ p.header.freeBytes.toNat) :
    ∃ p', p.writeSlot row = some (.ok (.ofNat rows.length), p') ∧ p'.Holds (rows ++ [row]) ∧ p'.pageSize = p.pageSize := by
  have hspace := h.free
  have hlength := h.length
  have hsize := h.size_le
  obtain ⟨front, hfront, hbuf⟩ := h.buf
  have hfits : 4 * (rows.length + 1) + (total rows + row.length) ≤ p.pageSize - size := by omega
  have hstart : p.pageSize - total rows - row.length = size + (p.pageSize - size - total rows - row.length) := by omega
  have hcopy (buf data : Bytes) (start : Nat) (hin : start + data.length ≤ buf.length) :
      copyInto buf start data = some (patch buf start data) := if_pos hin
  have hbytes (k : Nat) : (leBytes 2 k).length = 2 := length_leBytes 2 k
  have hrow : (patch p.buf (p.pageSize - total rows - row.length) row).length = p.pageSize :=
    (length_patch (by omega)).trans hlength
  have hoffset : (patch (patch p.buf (p.pageSize - total rows - row.length) row) (size + 4 * rows.length)
      (leBytes 2 (p.pageSize - total rows - row.length - size))).length = p.pageSize :=
    (length_patch (by rw [hrow, hbytes]; omega)).trans hrow
  unfold writeSlot slotDirEntrySize
  rw [if_neg (by simp [h.unsealed]), if_neg (Nat.not_lt.2 hfree), h.count, h.slotLengths rows [] (append_nil _).symm,
    Nat.mul_comm rows.length 4]
  simp only [guard, show size + total rows + row.length ≤ p.pageSize by omega, if_true, bind, Option.bind, pure]
  rw [hcopy _ _ _ (by omega)]
  dsimp only
  rw [hcopy _ _ _ (by rw [hrow, hbytes]; omega)]
  dsimp only
  rw [hcopy _ _ _ (by rw [hoffset, hbytes]; omega)]
  refine ⟨_, rfl, ⟨h.unsealed, h.magic, hsize, ⟨front, hfront, ?_⟩, ?_, ?_⟩, rfl⟩
  · change patch (patch (patch _ _ _) _ _) _ _ = _
    rw [hstart, Nat.add_sub_cancel_left, hbuf]
    exact patch_bodyOf hfront hfits
  · have hone : (1 : UInt16).toNat = 1 := rfl
    rw [UInt16.toNat_add, length_append, length_singleton, h.count, hone]
    exact Nat.mod_eq_of_lt (by omega)
  · have hneeded : (UInt16.ofNat (4 + row.length)).toNat = 4 + row.length :=
      UInt16.toNat_ofNat_of_lt' (by change _ < 2 ^ 16; omega)
    rw [UInt16.toNat_sub_of_le _ _ (UInt16.le_iff_toNat_le.2 (by omega)), total_append, total_cons, length_append,
      length_singleton]
    change _ + (_ + (_ + (_ + 0))) = (p.pageSize - size) % 2 ^ 16
    omega

/-- Every write is answered, and the rows that are accepted stand under their slots. -/
theorem writeSlots (new : List Bytes) : ∃ accepted p' rows', p.writeSlots new = some (accepted, p') ∧ p'.Holds rows' ∧
    p'.pageSize = p.pageSize ∧ rows <+: rows' ∧ ∀ x ∈ accepted, rows'[x.1.toNat]? = some x.2 := by
  induction new generalizing p rows with
  | nil => exact ⟨[], p, rows, rfl, h, rfl, prefix_rfl, by simp⟩
  | cons row new ih =>
    rcases Nat.lt_or_ge p.header.freeBytes.toNat (4 + row.length) with hfull | hfree
    · obtain ⟨e, he⟩ := h.writeSlot_full hfull
      obtain ⟨accepted, p', rows', hwritten, hp'⟩ := ih h
      exact ⟨accepted, p', rows', by rw [Page.writeSlots, he]; simp [hwritten], hp'⟩
    · obtain ⟨p₁, hp₁, h₁, hsize⟩ := h.writeSlot_ok hfree
      obtain ⟨accepted, p', rows', hwritten, hp', hsize', hrows, haccepted⟩ := ih h₁
      refine ⟨(.ofNat rows.length, row) :: accepted, p', rows', by rw [Page.writeSlots, hp₁]; simp [hwritten], hp',
        hsize'.trans hsize, (prefix_append rows [row]).trans hrows, forall_mem_cons.2 ⟨?_, haccepted⟩⟩
      have hspace := h.free
      rw [UInt16.toNat_ofNat_of_lt' (by change _ < 2 ^ 16; omega)]
      obtain ⟨later, rfl⟩ := hrows
      simp

theorem readSlot {slotId : UInt16} (before after : List Bytes) (row : Bytes) (hrows : rows = before ++ row :: after)
    (hslot : slotId.toNat = before.length) : p.readSlot slotId = some (.ok (window (bodyOf (p.pageSize - size) rows)
      ((p.pageSize - size - total before - row.length) % 2 ^ 16) row.length)) := by
  have hfits := h.fits
  have hlength : (UInt16.ofNat row.length).toNat = row.length :=
    UInt16.toNat_ofNat_of_lt' (h.row_lt (by simp [hrows]))
  have hentry : entryAt (p.buf.drop size) slotId.toNat =
      ⟨.ofNat (p.pageSize - size - total before - row.length), .ofNat row.length⟩ := by
    rw [h.body, hrows, hslot, entryAt_bodyOf]
  have hmod := Nat.mod_le (p.pageSize - size - total before - row.length) (2 ^ 16)
  have hlt : slotId.toNat < rows.length := by
    rw [hslot, hrows]
    simp
  rw [hrows, total_append, total_cons] at hfits
  rw [readSlot_eq (h.length ▸ h.size_le) (h.count ▸ hlt), if_pos, rowAt, hentry, hlength, UInt16.toNat_ofNat', h.body]
  refine ⟨by rw [h.body_length]; rw [← hrows] at hfits; omega, ?_⟩
  rw [hentry, hlength, UInt16.toNat_ofNat', h.body_length]
  omega

theorem readSlot_row {slotId : UInt16} (hi : rows[slotId.toNat]? = some row)
    (hshort : p.pageSize - size < 2 ^ 16 ∨ (p.pageSize - size) % 2 ^ 16 < 5) : p.readSlot slotId = some (.ok row) := by
  obtain ⟨hlt, hrow⟩ := List.getElem?_eq_some_iff.1 hi
  have hrows : rows = rows.take slotId.toNat ++ row :: rows.drop (slotId.toNat + 1) := by
    rw [← hrow, ← drop_eq_getElem_cons hlt, take_append_drop]
  have hslot : slotId.toNat = (rows.take slotId.toNat).length := (length_take_of_le hlt.le).symm
  rw [h.readSlot _ _ row hrows hslot]
  rcases hshort with hshort | hshort
  · have hread := row_bodyOf (rows.take slotId.toNat) (rows.drop (slotId.toNat + 1)) row (hrows ▸ h.fits)
    rw [← hrows] at hread
    rw [Nat.mod_eq_of_lt (by omega), hread]
  · -- No space is left for a row that is not empty.
    have hspace := h.free
    rw [hrows, total_append, total_cons, length_append, length_cons] at hspace
    obtain rfl : row = [] := eq_nil_of_length_eq_zero (by omega)
    rw [length_nil, window, take_zero]

end Holds

end Page

theorem PageHeader.length_toBytes (h : PageHeader) : h.toBytes.length = size := by
  simp [toBytes, checkedBytes, size]

theorem PageHeader.ofBytes_toBytes (h : PageHeader) (rest : Bytes) : ofBytes (h.toBytes ++ rest) = h := by
  have hu16 (v : UInt16) (rest : Bytes) : takeNat 2 (leBytes 2 v.toNat ++ rest) = (v.toNat, rest) :=
    takeNat_leBytes v.toNat_lt rest
  have hhash (rest : Bytes) : hashOf (h.contentHash.toList ++ rest) = h.contentHash := by
    refine (congrArg Vector.ofFn (funext fun i => ?_)).trans (hashOf_toList _)
    rw [getD_eq_getElem?_getD, getElem?_append_left (by simp), getD_eq_getElem?_getD]
  simp only [ofBytes, toBytes, checkedBytes, append_assoc, takeNat_u8, takeNat_u32, takeNat_u64, hu16, hhash,
    drop_left' h.contentHash.length_toList]
  simp

namespace Page

theorem holds_withSize {pageId : UInt64} {tableId : UInt32} {pageSize : Nat} {p : Page}
    (h : withSize pageId tableId pageSize = some p) : p.Holds [] ∧ p.pageSize = pageSize := by
  unfold withSize at h
  split at h
  · next hsize =>
    cases h
    exact ⟨⟨rfl, rfl, by change _ ≤ pageSize; omega,
      ⟨(PageHeader.new pageId tableId pageSize).toBytes, PageHeader.length_toBytes _, by
        simp [flushHeader, bodyOf, entries, total]⟩, rfl, UInt16.toNat_ofNat'⟩, rfl⟩
  · cases h

section Sealed
variable (crc32 : Bytes → UInt32) (blake3 : Bytes → Hash) {p : Page} {rows : List Bytes}

def sealedHeader (p : Page) : PageHeader :=
  let h := { p.header with contentHash := blake3 (p.buf.drop size) }
  { h with crc32 := crc32 (h.checkedBytes ++ p.buf.drop size) }

theorem computeCrc_of {h : PageHeader} {body : Bytes} (hbuf : p.buf = h.toBytes ++ body) :
    p.computeCrc crc32 = crc32 (h.checkedBytes ++ body) := by
  have hlength : h.checkedBytes.length = size - 4 := by simp [PageHeader.checkedBytes, size]
  rw [computeCrc, hbuf, drop_left' h.length_toBytes, PageHeader.toBytes, append_assoc, take_left' hlength]

theorem buf_sealPage : (p.sealPage crc32 blake3).buf = (p.sealedHeader crc32 blake3).toBytes ++ p.buf.drop size := by
  have hflush (p : Page) : p.flushHeader.buf.drop size = p.buf.drop size := drop_left' p.header.length_toBytes
  unfold sealPage sealedHeader
  dsimp only
  rw [hflush, computeCrc_of crc32 rfl, hflush]
  change _ ++ drop size _ = _
  rw [hflush]
  change _ ++ drop size p.flushHeader.buf = _
  rw [hflush]
  rfl

theorem fromBytes_sealPage (h : p.Holds rows) : ∃ q, fromBytes crc32 blake3 (p.sealPage crc32 blake3).buf = .ok q ∧
    ∀ slotId : UInt16, slotId.toNat < rows.length → q.readSlot slotId = p.readSlot slotId := by
  obtain ⟨bytes, hbytes⟩ : ∃ bytes, bytes = (p.sealedHeader crc32 blake3).toBytes ++ p.buf.drop size := ⟨_, rfl⟩
  have hheader : PageHeader.ofBytes bytes = p.sealedHeader crc32 blake3 := hbytes ▸ PageHeader.ofBytes_toBytes _ _
  have hdrop : bytes.drop size = p.buf.drop size := hbytes ▸ drop_left' (PageHeader.length_toBytes _)
  have hlength : size ≤ bytes.length := by
    rw [hbytes, length_append, PageHeader.length_toBytes]
    omega
  rw [buf_sealPage, ← hbytes]
  refine ⟨⟨bytes, p.sealedHeader crc32 blake3, true, bytes.length⟩, (fromBytes_eq_ok crc32 blake3 _).2
    ⟨hlength, hheader ▸ h.magic, by rw [hheader], computeCrc_of crc32 (h := p.sealedHeader crc32 blake3) hbytes,
      congrArg blake3 hdrop⟩, fun slotId hslot => ?_⟩
  rw [readSlot_eq hlength (h.count ▸ hslot), readSlot_eq (h.length ▸ h.size_le) (h.count ▸ hslot), hdrop]

end Sealed

/-- Every row that a page of this size accepts is read under its slot, also when the page has been sealed and read. -/
def RowsKept (crc32 : Bytes → UInt32) (blake3 : Bytes → Hash) (pageSize : Nat) : Prop :=
  ∀ pageId tableId p rows, withSize pageId tableId pageSize = some p → ∃ accepted p' q,
    p.writeSlots rows = some (accepted, p') ∧ fromBytes crc32 blake3 (p'.sealPage crc32 blake3).buf = .ok q ∧
      ∀ x ∈ accepted, p'.readSlot x.1 = some (.ok x.2) ∧ q.readSlot x.1 = some (.ok x.2)

/-- The first row of a page with a larger body is read from another place, where there is nothing. -/
theorem readSlot_truncated {pageSize : Nat} {p : Page} {pageId : UInt64} {tableId : UInt32}
    (hp : withSize pageId tableId pageSize = some p) (hlong : 2 ^ 16 ≤ pageSize - size)
    (hspace : 5 ≤ (pageSize - size) % 2 ^ 16) :
    ∃ p', p.writeSlots [[1]] = some ([(0, [1])], p') ∧ p'.readSlot 0 = some (.ok [0]) := by
  obtain ⟨h, rfl⟩ := holds_withSize hp
  have hfree : p.header.freeBytes.toNat = _ := h.free
  obtain ⟨p', hwritten, h', hsize⟩ : ∃ p', p.writeSlot [1] = _ ∧ _ := h.writeSlot_ok (by change 4 + 1 ≤ _; omega)
  refine ⟨p', by rw [writeSlots, hwritten]; rfl, ?_⟩
  rw [h'.readSlot [] [] [1] rfl rfl, hsize]
  change some (Except.ok (window _ ((p.pageSize - size - 1) % 2 ^ 16) 1)) = _
  rw [gap_bodyOf (by change 4 ≤ _; omega) (by change _ < _ - 1; omega)]

theorem rowsKept_iff (crc32 : Bytes → UInt32) (blake3 : Bytes → Hash) (pageSize : Nat) :
    RowsKept crc32 blake3 pageSize ↔ pageSize - size < 2 ^ 16 ∨ (pageSize - size) % 2 ^ 16 < 5 := by
  constructor
  · intro hkept
    by_contra! hlong
    obtain ⟨p, hp⟩ : ∃ p, withSize 0 0 pageSize = some p := ⟨_, if_pos (by unfold size at *; omega)⟩
    obtain ⟨p₁, hwritten, hread⟩ := readSlot_truncated hp hlong.1 hlong.2
    obtain ⟨accepted, p', q, hwritten', -, hrows⟩ := hkept 0 0 p [[1]] hp
    cases hwritten.symm.trans hwritten'
    cases hread.symm.trans (hrows _ (mem_singleton_self _)).1
  · intro hshort pageId tableId p rows hp
    obtain ⟨h, rfl⟩ := holds_withSize hp
    obtain ⟨accepted, p', rows', hwritten, h', hsize, -, haccepted⟩ := h.writeSlots rows
    obtain ⟨q, hq, hsame⟩ := fromBytes_sealPage crc32 blake3 h'
    rw [← hsize] at hshort
    refine ⟨accepted, p', q, hwritten, hq, fun x hx => ⟨h'.readSlot_row (haccepted x hx) hshort, ?_⟩⟩
    rw [hsame _ (List.getElem?_eq_some_iff.1 (haccepted x hx)).1, h'.readSlot_row (haccepted x hx) hshort]

/-- A page of 65607 bytes takes itself for one of 71 bytes. -/
theorem row_lost : ∃ p p', withSize 0 0 65607 = some p ∧ p.writeSlots [[1]] = some ([(0, [1])], p') ∧
    p'.readSlot 0 = some (.ok [0]) := by
  have hp : withSize 0 0 65607 = some _ := if_pos (by decide)
  obtain ⟨p', hwritten, hread⟩ := readSlot_truncated hp (by decide) (by decide)
  exact ⟨_, p', hp, hwritten, hread⟩

end Page

end VectorLedger.Pages
