import Mizu.Security.MizuUri
import Mizu.Security.Sandbox

/-!
# Hosts that are read again

A host that the URL standard has serialised is read back as itself.

* `urlIpv6_display`: the address between brackets.
* `urlHost_idem`: any host.
* `parse_own`: a URL that is put together from the host of a URI is fetched from that host.
-/

namespace Mizu

/-! ## Groups -/

section Groups

theorem toDigit_digitChar : ∀ d < 16, toDigit 16 (Nat.digitChar d) = some d := by decide

theorem toDigits_values (n : Nat) :
    ∃ ds : List Nat, (Nat.toDigits 16 n).map (toDigit 16) = ds.map some ∧
      ds.foldl (fun v d => v * 16 + d) 0 = n := by
  induction n using Nat.strongRecOn with
  | ind n ih =>
    by_cases hn : n < 16
    · refine ⟨[n], ?_, ?_⟩
      · rw [Nat.toDigits_of_lt_base hn, List.map_singleton, toDigit_digitChar n hn]
        rfl
      · show 0 * 16 + n = n
        omega
    · obtain ⟨ds, hds, hvalue⟩ := ih (n / 16) (by omega)
      refine ⟨ds ++ [n % 16], ?_, ?_⟩
      · grind [Nat.toDigits_of_base_le, toDigit_digitChar]
      · rw [List.foldl_append, hvalue, List.foldl_cons, List.foldl_nil]
        omega

/-- Digits are read up to a character that is none. -/
theorem spanDigits_append {radix : Nat} {cs rest : List Char} {ds : List Nat}
    (h : cs.map (toDigit radix) = ds.map some) (hrest : ∀ c ∈ rest.head?, toDigit radix c = none) :
    spanDigits radix (cs ++ rest) = (ds, rest) := by
  induction cs generalizing ds with
  | nil =>
    obtain rfl : ds = [] := List.map_eq_nil_iff.mp h.symm
    cases rest with
    | nil => rfl
    | cons c rest =>
      rw [List.nil_append, spanDigits, hrest c rfl]
  | cons c cs ih =>
    cases ds with
    | nil => cases h
    | cons d ds =>
      rw [List.map_cons, List.map_cons, List.cons.injEq] at h
      rw [List.cons_append, spanDigits, h.1]
      dsimp only
      rw [ih h.2]

/-- The text of groups, with a colon between two. -/
def groupsText : List Nat → List Char
  | [] => []
  | [p] => Nat.toDigits 16 p
  | p :: ps => Nat.toDigits 16 p ++ ':' :: groupsText ps

theorem urlHexPieces_eq (ps : List Nat) : urlHexPieces ps = groupsText ps := by
  unfold urlHexPieces
  rw [String.toList_intercalate]
  induction ps with
  | nil => rfl
  | cons p ps ih =>
    cases ps with
    | nil => simp [groupsText]
    | cons q qs =>
      rw [groupsText, ← ih]
      · simp [List.intercalate]
      · exact List.cons_ne_nil _ _

/-- What may follow a group: nothing, or a colon and more. -/
def GroupEnds (rest : List Char) : Prop := rest = [] ∨ ∃ more, rest = ':' :: more ∧ more ≠ []

theorem urlIpv6Pieces_group {p : Nat} (hp : p < 65536) (left : Nat) (compressed : Bool) {rest : List Char}
    (h : GroupEnds rest) :
    urlIpv6Pieces (left + 1) compressed (Nat.toDigits 16 p ++ rest) =
      (some p :: ·) <$> if rest = [] then urlIpv6End left compressed
        else urlIpv6Pieces left compressed rest.tail := by
  obtain ⟨ds, hds, hvalue⟩ := toDigits_values p
  have hspan : spanDigits 16 (Nat.toDigits 16 p ++ rest) = (ds, rest) := by
    refine spanDigits_append hds fun c hc => ?_
    rcases h with rfl | ⟨more, rfl, _⟩
    · cases hc
    · obtain rfl := Option.some.inj hc
      rfl
  have hlength : ds.length = (Nat.toDigits 16 p).length := by simpa using (congrArg List.length hds).symm
  have hshort : ds.length ≤ 4 := by
    rw [hlength]
    exact (Nat.length_toDigits_le_iff (by decide) (by decide)).mpr hp
  have htake : (spanDigits 16 (Nat.toDigits 16 p ++ rest)).1.take 4 = ds := by
    rw [hspan]
    exact List.take_of_length_le hshort
  have hdrop : (Nat.toDigits 16 p ++ rest).drop ds.length = rest := by rw [hlength, List.drop_left]
  cases hdigits : Nat.toDigits 16 p with
  | nil => exact absurd hdigits Nat.toDigits_ne_nil
  | cons c cs =>
    have hcolon : c ≠ ':' := by
      rintro rfl
      rw [hdigits] at hds
      cases ds with
      | nil => cases hds
      | cons d ds => cases (List.cons.inj hds).1
    rw [hdigits, List.cons_append] at htake hdrop
    rw [List.cons_append, urlIpv6Pieces, if_neg hcolon]
    dsimp only
    rw [htake, hdrop, hvalue]
    rcases h with rfl | ⟨more, rfl, hmore⟩
    · rfl
    · cases more with
      | nil => exact absurd rfl hmore
      | cons m more => rfl

/-- Groups are read, up to the end or to a colon and more. -/
theorem urlIpv6Pieces_groups {ps : List Nat} (hps : ∀ p ∈ ps, p < 65536) (hne : ps ≠ []) {left : Nat}
    (hle : ps.length ≤ left) (compressed : Bool) {rest : List Char} (h : GroupEnds rest) :
    urlIpv6Pieces left compressed (groupsText ps ++ rest) =
      (ps.map some ++ ·) <$> if rest = [] then urlIpv6End (left - ps.length) compressed
        else urlIpv6Pieces (left - ps.length) compressed rest.tail := by
  induction ps generalizing left with
  | nil => exact absurd rfl hne
  | cons p ps ih =>
    obtain ⟨left, rfl⟩ : ∃ n, left = n + 1 := Nat.exists_eq_add_one_of_ne_zero (by rintro rfl; cases hle)
    have hp : p < 65536 := hps p List.mem_cons_self
    cases ps with
    | nil =>
      rw [groupsText, urlIpv6Pieces_group hp left compressed h]
      rfl
    | cons q qs =>
      have htext : groupsText (p :: q :: qs) ++ rest =
          Nat.toDigits 16 p ++ ':' :: (groupsText (q :: qs) ++ rest) := by
        rw [groupsText]
        · rw [List.append_assoc, List.cons_append]
        · exact List.cons_ne_nil _ _
      have hmore : groupsText (q :: qs) ++ rest ≠ [] := by
        intro hnil
        have hdigits := (List.append_eq_nil_iff.mp hnil).1
        cases qs with
        | nil => exact Nat.toDigits_ne_nil hdigits
        | cons r rs =>
          rw [groupsText] at hdigits
          · exact Nat.toDigits_ne_nil (List.append_eq_nil_iff.mp hdigits).1
          · exact List.cons_ne_nil _ _
      rw [htext, urlIpv6Pieces_group hp left compressed (.inr ⟨_, rfl, hmore⟩), if_neg (List.cons_ne_nil _ _),
        List.tail_cons,
        ih (fun x hx => hps x (List.mem_cons_of_mem _ hx)) (List.cons_ne_nil _ _)
          (by simpa using hle)]
      have hlen : left + 1 - (p :: q :: qs).length = left - (q :: qs).length := by simp
      rw [hlen, ← comp_map]
      rfl

end Groups

/-! ## Addresses -/

variable {cs : List Char}

section Addresses

variable {pieces : List Nat}

/-- A run of zeros consists of zeros. -/
theorem take_zeroRun {n : Nat} (h : n ≤ zeroRun pieces) : pieces.take n = List.replicate n 0 := by
  induction pieces generalizing n with
  | nil =>
    obtain rfl : n = 0 := Nat.le_zero.mp h
    rfl
  | cons p pieces ih =>
    cases n with
    | zero => rfl
    | succ n =>
      unfold zeroRun at h
      by_cases hp : p = 0
      · subst hp
        rw [List.takeWhile_cons_of_pos (by rfl), List.length_cons] at h
        rw [List.take_succ_cons, ih (Nat.le_of_succ_le_succ h), List.replicate_succ]
      · rw [List.takeWhile_cons_of_neg (by simpa using hp)] at h
        cases h

/-- What is left out is a run of zeros. -/
theorem longestZeroRun_le (pieces : List Nat) :
    (longestZeroRun pieces).2 ≤ zeroRun (pieces.drop (longestZeroRun pieces).1) := by
  unfold longestZeroRun
  refine List.foldlRecOn (motive := fun best : Nat × Nat => best.2 ≤ zeroRun (pieces.drop best.1)) _ _
    (Nat.zero_le _) ?_
  intro best hbest i _
  split
  · exact Nat.le_refl _
  · exact hbest

theorem longestZeroRun_split (pieces : List Nat) :
    let (start, len) := longestZeroRun pieces
    pieces.take start ++ (List.replicate len 0 ++ pieces.drop (start + len)) = pieces := by
  have hle := longestZeroRun_le pieces
  generalize longestZeroRun pieces = run at *
  obtain ⟨start, len⟩ := run
  dsimp only at *
  rw [← take_zeroRun hle, ← List.drop_drop, List.take_append_drop, List.take_append_drop]

theorem urlIpv6Fill_some (ps : List Nat) : urlIpv6Fill (ps.map some) = ps := by
  simp [List.flatMap_map, urlIpv6Fill]

theorem urlIpv6Fill_none (as bs : List Nat) :
    urlIpv6Fill (as.map some ++ none :: bs.map some) =
      as ++ (List.replicate (8 - (as.length + bs.length)) 0 ++ bs) := by
  unfold urlIpv6Fill
  rw [List.flatMap_append, List.flatMap_cons, List.flatMap_map, List.flatMap_map, List.length_append,
    List.length_cons, List.length_map, List.length_map]
  have hcount : 9 - (as.length + (bs.length + 1)) = 8 - (as.length + bs.length) := by omega
  rw [hcount]
  simp only [List.flatMap_singleton']

theorem groupsText_head {ps : List Nat} (hne : ps ≠ []) :
    ∃ c cs, groupsText ps = c :: cs ∧ (toDigit 16 c).isSome := by
  cases ps with
  | nil => exact absurd rfl hne
  | cons p ps =>
    obtain ⟨rest, hrest⟩ : ∃ rest, groupsText (p :: ps) = Nat.toDigits 16 p ++ rest := by
      cases ps with
      | nil => exact ⟨[], (List.append_nil _).symm⟩
      | cons q qs => exact ⟨':' :: groupsText (q :: qs), by rw [groupsText]; exact List.cons_ne_nil _ _⟩
    obtain ⟨ds, hds, _⟩ := toDigits_values p
    cases hdigits : Nat.toDigits 16 p with
    | nil => exact absurd hdigits Nat.toDigits_ne_nil
    | cons c cs =>
      refine ⟨c, cs ++ rest, by rw [hrest, hdigits]; rfl, ?_⟩
      rw [hdigits] at hds
      cases ds with
      | nil => cases hds
      | cons d ds => rw [(List.cons.inj hds).1]; rfl

theorem urlIpv6_of_digit {c : Char} (hc : (toDigit 16 c).isSome) (cs : List Char) :
    urlIpv6 (c :: cs) = urlIpv6Fill <$> urlIpv6Pieces 8 false (c :: cs) := by
  have hcolon : c ≠ ':' := by
    rintro rfl
    cases hc
  unfold urlIpv6
  split
  · rename_i heq
    exact absurd (List.cons.inj heq).1 hcolon
  · rename_i heq
    exact absurd (List.cons.inj heq).1 hcolon
  · rfl

theorem urlIpv6Pieces_last {bs : List Nat} (hbs : ∀ p ∈ bs, p < 65536) {left : Nat}
    (hle : bs.length ≤ left) :
    urlIpv6Pieces left true (groupsText bs) = some (bs.map some) := by
  cases bs with
  | nil =>
    cases left with
    | zero => rfl
    | succ n => rfl
  | cons b bs =>
    have h := urlIpv6Pieces_groups hbs (List.cons_ne_nil _ _) hle true (.inl rfl)
    rw [List.append_nil, if_pos rfl] at h
    rw [h]
    show some ((b :: bs).map some ++ []) = _
    rw [List.append_nil]

/-- The IPv6 parser reads what the serializer writes. -/
theorem urlIpv6_display (hlength : pieces.length = 8) (hlt : ∀ p ∈ pieces, p < 65536) :
    urlIpv6 (urlIpv6Display pieces) = some pieces := by
  have hsplit := longestZeroRun_split pieces
  unfold urlIpv6Display
  generalize longestZeroRun pieces = run at *
  obtain ⟨start, len⟩ := run
  dsimp only at *
  split
  · have has : ∀ p ∈ pieces.take start, p < 65536 := fun p hp => hlt p (List.mem_of_mem_take hp)
    have hbs : ∀ p ∈ pieces.drop (start + len), p < 65536 := fun p hp => hlt p (List.mem_of_mem_drop hp)
    have htotal : (pieces.take start).length + (len + (pieces.drop (start + len)).length) = 8 := by grind
    rw [urlHexPieces_eq, urlHexPieces_eq]
    generalize pieces.take start = as at *
    generalize pieces.drop (start + len) = bs at *
    have hzeros : 8 - (as.length + bs.length) = len := by omega
    have hfill := urlIpv6Fill_none as bs
    rw [hzeros, hsplit] at hfill
    cases as with
    | nil =>
      show (fun pieces => urlIpv6Fill (none :: pieces)) <$> urlIpv6Pieces 7 true (groupsText bs) = some pieces
      rw [urlIpv6Pieces_last hbs (by simp at htotal; omega)]
      exact congrArg some hfill
    | cons a as =>
      obtain ⟨c, cs, hcs, hc⟩ := groupsText_head (List.cons_ne_nil a as)
      have htext : groupsText (a :: as) ++ "::".toList ++ groupsText bs =
          groupsText (a :: as) ++ ':' :: ':' :: groupsText bs := by
        rw [List.append_assoc]
        rfl
      have hpieces := @urlIpv6Pieces_groups _ has (List.cons_ne_nil _ _) 8 (by omega) false _
        (.inr ⟨':' :: groupsText bs, rfl, List.cons_ne_nil _ _⟩)
      obtain ⟨left, hleft⟩ : ∃ n, 8 - (a :: as).length = n + 1 := ⟨7 - (a :: as).length, by omega⟩
      rw [if_neg (List.cons_ne_nil _ _), List.tail_cons, hleft, urlIpv6Pieces, if_pos rfl, if_neg (by decide),
        urlIpv6Pieces_last hbs (by omega)] at hpieces
      rw [htext, hcs, List.cons_append, urlIpv6_of_digit hc, ← List.cons_append, ← hcs, hpieces]
      exact congrArg some hfill
  · obtain ⟨c, cs, hcs, hc⟩ := @groupsText_head pieces (by rintro rfl; cases hlength)
    have hpieces := urlIpv6Pieces_groups hlt (by rintro rfl; cases hlength) (Nat.le_of_eq hlength) false (.inl rfl)
    rw [List.append_nil, if_pos rfl, hlength] at hpieces
    rw [urlHexPieces_eq, hcs, urlIpv6_of_digit hc, ← hcs, hpieces]
    show some (urlIpv6Fill (pieces.map some ++ [])) = some pieces
    rw [List.append_nil, urlIpv6Fill_some]

/-- Pieces that may have been read with `left` to go; a compression that was read before may not be repeated. -/
def PiecesFit (left : Nat) (compressed : Bool) (xs : List (Option Nat)) : Prop :=
  (∃ ps : List Nat, xs = ps.map some ∧ ps.length ≤ left ∧ (compressed = false → ps.length = left) ∧
      ∀ p ∈ ps, p < 65536) ∨
    compressed = false ∧ ∃ as bs : List Nat, xs = as.map some ++ none :: bs.map some ∧
      as.length + bs.length < left ∧
      ∀ p ∈ as ++ bs, p < 65536

variable {xs : List (Option Nat)} {compressed : Bool}

theorem PiecesFit.cons {left : Nat} (h : PiecesFit left compressed xs)
    {p : Nat} (hp : p < 65536) : PiecesFit (left + 1) compressed (some p :: xs) := by
  rcases h with ⟨ps, rfl, hle, hall, hlt⟩ | ⟨hcompressed, as, bs, rfl, hle, hlt⟩
  · refine .inl ⟨p :: ps, rfl, Nat.succ_le_succ hle, fun h => congrArg Nat.succ (hall h), ?_⟩
    exact List.forall_mem_cons.mpr ⟨hp, hlt⟩
  · refine .inr ⟨hcompressed, p :: as, bs, rfl, ?_, List.forall_mem_cons.mpr ⟨hp, hlt⟩⟩
    rw [List.length_cons]
    omega

theorem piecesFit_end {left : Nat}
    (h : urlIpv6End left compressed = some xs) : PiecesFit left compressed xs := by
  unfold urlIpv6End at h
  split at h
  · rename_i hend
    obtain rfl := Option.some.inj h
    refine .inl ⟨[], rfl, Nat.zero_le _, fun hcompressed => ?_, nofun⟩
    rw [hcompressed, Bool.false_or, decide_eq_true_eq] at hend
    exact hend.symm
  · cases h

theorem urlIpv4_le (n : Nat) {octets : List Nat} (h : urlIpv4 n cs = some octets) :
    ∀ octet ∈ octets, octet ≤ 255 := by
  induction n generalizing cs octets with
  | zero => grind [urlIpv4]
  | succ n ih =>
    rw [urlIpv4] at h
    obtain ⟨rest, _, h⟩ := Option.bind_eq_some_iff.mp h
    dsimp only at h
    split at h
    · cases h
    · rename_i hrange
      obtain ⟨octets, hoctets, rfl⟩ := Option.map_eq_some_iff.mp h
      simp only [Bool.or_eq_true, decide_eq_true_eq, not_or] at hrange
      exact List.forall_mem_cons.mpr ⟨Nat.not_lt.mp hrange.2, ih hoctets⟩

theorem getD_le {octets : List Nat} (h : ∀ octet ∈ octets, octet ≤ 255) (i : Nat) : octets.getD i 0 ≤ 255 := by
  rw [List.getD_eq_getElem?_getD]
  cases hi : octets[i]? with
  | none => exact Nat.zero_le _
  | some octet => exact h octet (List.mem_of_getElem? hi)

theorem urlIpv6Pieces_fit {left : Nat}
    (h : urlIpv6Pieces left compressed cs = some xs) : PiecesFit left compressed xs := by
  induction left generalizing compressed cs xs with
  | zero =>
    cases cs with
    | nil => exact piecesFit_end h
    | cons c cs => cases h
  | succ left ih =>
    cases cs with
    | nil => exact piecesFit_end h
    | cons c cs =>
      rw [urlIpv6Pieces] at h
      by_cases hc : c = ':'
      · rw [if_pos hc] at h
        split at h
        · cases h
        · rename_i hcompressed
          obtain ⟨ys, hys, rfl⟩ := Option.map_eq_some_iff.mp h
          rcases ih hys with ⟨ps, rfl, hle, -, hlt⟩ | ⟨hfalse, -⟩
          · refine .inr ⟨Bool.eq_false_iff.mpr hcompressed, [], ps, rfl, ?_, hlt⟩
            rw [List.length_nil]
            omega
          · cases hfalse
      · rw [if_neg hc] at h
        dsimp only at h
        have hvalue : ((spanDigits 16 (c :: cs)).1.take 4).foldl (fun v d => v * 16 + d) 0 < 65536 := by
          have hdigits := foldl_digits_lt 16 0 ((spanDigits 16 (c :: cs)).1.take 4) fun d hd =>
            spanDigits_lt (List.mem_of_mem_take hd)
          have hpow : 16 ^ ((spanDigits 16 (c :: cs)).1.take 4).length ≤ 16 ^ 4 :=
            Nat.pow_le_pow_right (by decide) (List.length_take_le _ _)
          omega
        split at h
        · obtain ⟨ys, hys, rfl⟩ := Option.map_eq_some_iff.mp h
          exact (piecesFit_end hys).cons hvalue
        · split at h
          · cases h
          · rename_i hroom
            obtain ⟨octets, hoctets, h⟩ := Option.bind_eq_some_iff.mp h
            obtain ⟨ys, hys, h⟩ := Option.bind_eq_some_iff.mp h
            obtain rfl := Option.some.inj h
            have hle := getD_le (urlIpv4_le 4 hoctets)
            have h0 := hle 0
            have h1 := hle 1
            have h2 := hle 2
            have h3 := hle 3
            have hleft : left - 1 + 1 + 1 = left + 1 := by grind
            rw [← hleft]
            exact ((piecesFit_end hys).cons (by omega)).cons (by omega)
        · split at h
          · cases h
          · obtain ⟨ys, hys, rfl⟩ := Option.map_eq_some_iff.mp h
            exact (ih hys).cons hvalue
        · cases h

theorem PiecesFit.fill (h : PiecesFit 8 false xs) :
    (urlIpv6Fill xs).length = 8 ∧ ∀ p ∈ urlIpv6Fill xs, p < 65536 := by
  rcases h with ⟨ps, rfl, -, hall, hlt⟩ | ⟨-, as, bs, rfl, hle, hlt⟩
  · rw [urlIpv6Fill_some]
    exact ⟨hall rfl, hlt⟩
  · grind [urlIpv6Fill_none]

/-- An address has eight pieces. -/
theorem urlIpv6_pieces (h : urlIpv6 cs = some pieces) : pieces.length = 8 ∧ ∀ p ∈ pieces, p < 65536 := by
  unfold urlIpv6 at h
  split at h
  · obtain ⟨xs, hxs, rfl⟩ := Option.map_eq_some_iff.mp h
    refine PiecesFit.fill ?_
    rcases urlIpv6Pieces_fit hxs with ⟨ps, rfl, hle, -, hlt⟩ | ⟨hfalse, -⟩
    · refine .inr ⟨rfl, [], ps, rfl, ?_, hlt⟩
      rw [List.length_nil]
      omega
    · cases hfalse
  · cases h
  · obtain ⟨xs, hxs, rfl⟩ := Option.map_eq_some_iff.mp h
    exact (urlIpv6Pieces_fit hxs).fill

end Addresses

/-! ## Hosts -/

section Hosts

variable {cs serial : List Char}

/-- What a serialised host that is no address consists of. -/
def IsPlainHostChar (c : Char) : Prop :=
  isUrlForbiddenHostChar c = false ∧ 0x20 ≤ c.toNat ∧ c.toNat ≤ 0x7e

theorem hexDigit_plain (n : Nat) : IsPlainHostChar (hexDigit n) := by
  have hall : ∀ c ∈ "0123456789ABCDEF".toList, IsPlainHostChar c := by
    simp [IsPlainHostChar, isUrlForbiddenHostChar]
  refine hall _ ?_
  unfold hexDigit
  rw [List.getD_eq_getElem?_getD]
  cases hn : "0123456789ABCDEF".toList[n]? with
  | none => simp
  | some c => exact List.mem_of_getElem? hn

theorem urlPercentEncode_plain {c d : Char} (hc : isUrlForbiddenHostChar c = false) (hd : d ∈ urlPercentEncode c) :
    IsPlainHostChar d := by
  unfold urlPercentEncode at hd
  split at hd
  · rename_i hrange
    obtain rfl := List.mem_singleton.mp hd
    exact ⟨hc, hrange⟩
  · obtain ⟨b, _, hd⟩ := List.mem_flatMap.mp hd
    simp only [List.mem_cons, List.not_mem_nil, or_false] at hd
    rcases hd with rfl | rfl | rfl
    · exact ⟨by decide, by decide, by decide⟩
    · exact hexDigit_plain _
    · exact hexDigit_plain _

theorem addressChar_range {c : Char} (h : isUrlAddressChar c = true) :
    isHostEnd c = false ∧ 0x20 ≤ c.toNat ∧ c.toNat ≤ 0x7e := by
  have hend : isHostEnd c = false := by
    unfold isHostEnd
    simp only [Bool.or_eq_false_iff, decide_eq_false_iff_not]
    refine ⟨⟨?_, ?_⟩, ?_⟩ <;> rintro rfl <;> cases h
  unfold isUrlAddressChar at h
  simp only [Bool.or_eq_true, decide_eq_true_eq] at h
  rcases h with (h | rfl) | rfl
  · unfold toDigit at h
    grind
  · decide
  · decide

/-- A serialised host is an address between brackets, or consists of plain characters. -/
theorem urlHost_shape (h : urlHost cs = some serial) :
    (∃ pieces : List Nat, serial = '[' :: (urlIpv6Display pieces ++ [']']) ∧ pieces.length = 8 ∧
      ∀ p ∈ pieces, p < 65536) ∨ ∀ c ∈ serial, IsPlainHostChar c := by
  by_cases hhead : cs.head? = some '['
  · obtain ⟨rest, hrest⟩ := List.head?_eq_some_iff.mp hhead
    rw [urlHost_of_bracket hrest] at h
    split at h
    · grind [Option.map_eq_some_iff, urlIpv6_pieces]
    · cases h
  · rw [urlHost_of_ne hhead] at h
    split at h
    · cases h
    · rename_i hallowed
      obtain rfl := Option.some.inj h
      refine .inr fun d hd => ?_
      obtain ⟨c, hc, hd⟩ := List.mem_flatMap.mp hd
      refine urlPercentEncode_plain ?_ hd
      exact Bool.eq_false_iff.mpr fun hforbidden => hallowed (List.any_eq_true.mpr ⟨c, hc, hforbidden⟩)

/-- A serialised host is read as itself. -/
theorem urlHost_idem (h : urlHost cs = some serial) : urlHost serial = some serial := by
  rcases urlHost_shape h with ⟨pieces, rfl, hlength, hlt⟩ | hplain
  · rw [urlHost_of_bracket rfl, if_pos List.getLast?_concat, List.dropLast_concat, urlIpv6_display hlength hlt]
    rfl
  · have hhead : serial.head? ≠ some '[' := by
      intro hhead
      have hbracket := hplain '[' (List.mem_of_mem_head? hhead)
      exact absurd hbracket.1 (by decide)
    have hallowed : serial.any isUrlForbiddenHostChar = false :=
      List.any_eq_false.mpr fun c hc => by rw [(hplain c hc).1]; decide
    have hsame : ∀ l : List Char, (∀ c ∈ l, IsPlainHostChar c) → l.flatMap urlPercentEncode = l := by
      intro l hl
      induction l with
      | nil => rfl
      | cons c l ih =>
        obtain ⟨hc, hl⟩ := List.forall_mem_cons.mp hl
        rw [List.flatMap_cons, ih hl, urlPercentEncode, if_pos hc.2]
        rfl
    rw [urlHost_of_ne hhead, hallowed, if_neg (by decide), hsame serial hplain]

/-- A serialised host is one that the policy takes. -/
theorem wellformed_serial (h : urlHost cs = some serial) (hne : serial ≠ []) :
    isWellformedMizuHost (String.ofList serial) = true := by
  have hempty : (String.ofList serial).isEmpty = false := by
    rw [← Bool.not_eq_true, String.isEmpty_iff]
    intro hnil
    exact hne (by simpa using congrArg String.toList hnil)
  unfold isWellformedMizuHost
  rw [String.toList_ofList, hempty, Bool.false_or]
  rcases urlHost_shape h with ⟨pieces, rfl, hlength, hlt⟩ | hplain
  · have hparses : ipv6Parses (String.ofList (urlIpv6Display pieces)) = true := by
      rw [ipv6Parses_eq, urlIpv6_display hlength hlt]
      rfl
    have hchars := @urlIpv6_chars (urlIpv6Display pieces) (by rw [urlIpv6_display hlength hlt]; rfl)
    have hat : ('[' :: (urlIpv6Display pieces ++ [']'])).contains '@' = false := by
      rw [List.contains_eq_mem, decide_eq_false_iff_not, List.mem_cons, List.mem_append, List.mem_singleton]
      rintro (heq | hmem | heq)
      · cases heq
      · exact absurd (hchars '@' hmem) (by decide)
      · cases heq
    have hnil : urlIpv6Display pieces ≠ [] := by
      intro hnil
      rw [hnil] at hparses
      cases hparses
    have hinner : unbracketedHost (String.ofList ('[' :: (urlIpv6Display pieces ++ [']']))) =
        some (urlIpv6Display pieces) := by
      rw [unbracketedHost_of_bracket String.toList_ofList, List.getLast?_concat, List.dropLast_concat, hparses,
        if_pos ⟨rfl, by simpa using hnil, rfl⟩]
    rw [hat, if_neg (by decide), hinner]
    dsimp only
    rw [Bool.not_eq_true', List.any_eq_false]
    intro c hc
    rw [not_forbidden_of_address (hchars c hc)]
    decide
  · have hchar : ∀ c ∈ serial, c ≠ '@' ∧ c ≠ ':' ∧ c ≠ '[' ∧ isForbiddenHostChar c = false := by
      intro c hc
      obtain ⟨hallowed, hlow, hhigh⟩ := hplain c hc
      have hiff := @isUrlForbiddenHostChar_iff c (by omega) (by omega)
      rw [hallowed] at hiff
      have hnot := mt hiff.mpr (by decide)
      rw [not_or, not_or, Bool.not_eq_true] at hnot
      refine ⟨hnot.2.2, hnot.2.1, ?_, hnot.1⟩
      rintro rfl
      cases hallowed
    have hat : serial.contains '@' = false := by grind
    have hcolon : serial.contains ':' = false := by grind
    have hinner : unbracketedHost (String.ofList serial) = some serial := by
      grind [unbracketedHost_of_ne, String.toList_ofList, List.mem_of_mem_head?]
    rw [hat, if_neg (by decide), hinner]
    dsimp only
    rw [Bool.not_eq_true', List.any_eq_false]
    intro c hc
    rw [(hchar c hc).2.2.2]
    decide

end Hosts

/-! ## URLs of a host -/

section Own

variable {urlParse : String → Except String ParsedUrl}

/-- The host of an authority is a serialised one. -/
theorem urlAuthority_serial {authority : UrlAuthority} (h : urlAuthority cs = some authority) :
    ∃ host serial, urlHost host = some serial ∧ authority.host = String.ofList serial := by
  unfold urlAuthority at h
  simp only [Option.bind_eq_bind, Option.pure_def] at h
  split at h
  · cases h
  split at h
  · cases h
  obtain ⟨serial, hserial, h⟩ := Option.bind_eq_some_iff.mp h
  obtain ⟨port, _, h⟩ := Option.bind_eq_some_iff.mp h
  obtain rfl := Option.some.inj h
  exact ⟨_, serial, hserial, rfl⟩

/-- The host of a URI is a serialised one. -/
theorem serial_of_parse (hurl : FollowsStandard urlParse) {url : String} {uri : MizuUri}
    (h : MizuUri.parse urlParse url = .ok uri) :
    uri.domain.toList ≠ [] ∧ ∃ cs, urlHost cs = some uri.domain.toList := by
  obtain ⟨-, parsed, hparsed, hscheme, hhost, -⟩ := parse_ok_iff.mp h
  obtain ⟨rest, hrest⟩ := hurl.scheme hparsed
  obtain ⟨authority, hauthority, hhost', -⟩ := hurl.authority hparsed hrest (by rw [hscheme]; decide)
  rw [hhost] at hhost'
  cases authority with
  | none => cases hhost'
  | some authority =>
    obtain ⟨hdomain, hne⟩ := Option.filter_eq_some_iff.mp hhost'.symm
    have hdomain : authority.host = uri.domain := Option.some.inj hdomain
    refine ⟨fun hnil => ?_, ?_⟩
    · rw [String.toList_eq_nil_iff.mp hnil] at hne
      cases hne
    · unfold urlAfterScheme at hauthority
      split at hauthority
      · grind [String.toList_ofList, Option.map_eq_some_iff, urlAuthority_serial]
      · cases hauthority

theorem serial_char {cs serial : List Char} (h : urlHost cs = some serial) :
    ∀ c ∈ serial, isHostEnd c = false ∧ 0x20 ≤ c.toNat ∧ c.toNat ≤ 0x7e := by
  intro c hc
  rcases urlHost_shape h with ⟨pieces, rfl, hlength, hlt⟩ | hplain
  · have hchars := @urlIpv6_chars (urlIpv6Display pieces) (by rw [urlIpv6_display hlength hlt]; rfl)
    rw [List.mem_cons, List.mem_append, List.mem_singleton] at hc
    rcases hc with rfl | hc | rfl
    · decide
    · exact addressChar_range (hchars c hc)
    · decide
  · obtain ⟨hallowed, hrange⟩ := hplain c hc
    refine ⟨?_, hrange⟩
    unfold isHostEnd
    simp only [Bool.or_eq_false_iff, decide_eq_false_iff_not]
    refine ⟨⟨?_, ?_⟩, ?_⟩ <;> rintro rfl <;> cases hallowed

/-- The host of a URL that is put together from a serialised host. -/
theorem mizuDomain_own {domain path : String} (hserial : urlHost cs = some domain.toList)
    (hne : domain.toList ≠ []) (hpath : startsWith "/" path = true) :
    mizuDomain ("mizu://" ++ domain ++ path) = some domain := by
  have hend : ∀ c ∈ domain.toList, (!isHostEnd c) = true := fun c hc => by
    rw [(serial_char hserial c hc).1]
    rfl
  obtain ⟨rest, hrest⟩ : ∃ rest, path.toList = '/' :: rest := by
    rw [startsWith, List.isPrefixOf_iff_prefix] at hpath
    obtain ⟨rest, hrest⟩ := hpath
    exact ⟨rest, hrest.symm⟩
  have hstrip : stripPrefix "mizu://" ("mizu://" ++ domain ++ path) = some (domain ++ path) := by
    rw [String.append_assoc, stripPrefix_self]
  unfold mizuDomain
  rw [hstrip]
  dsimp only
  rw [String.toList_append, List.takeWhile_append_of_pos hend, hrest, List.takeWhile_cons_of_neg (by decide),
    List.append_nil, if_neg (by simpa using hne), String.ofList_toList]

/-- A URL on the host of a URI is fetched from that host. -/
theorem parse_own (hurl : FollowsStandard urlParse) {url path : String} {uri own : MizuUri}
    (h : MizuUri.parse urlParse url = .ok uri) (hpath : startsWith "/" path = true)
    (hown : MizuUri.parse urlParse ("mizu://" ++ uri.domain ++ path) = .ok own) : own.domain = uri.domain := by
  obtain ⟨hne, cs, hserial⟩ := serial_of_parse hurl h
  have hwell : isWellformedMizuHost uri.domain = true := by
    have hwell := wellformed_serial hserial hne
    rwa [String.ofList_toList] at hwell
  obtain ⟨serial, hagain, hauthority⟩ := urlAuthority_of_wellformed hwell
  have hparsed := authority_of_parse hurl hown (mizuDomain_own hserial hne hpath) (isWellformedMizuHost_lt hwell)
  rw [urlHost_idem hserial] at hagain
  obtain rfl := Option.some.inj hagain
  rw [hauthority, Option.some.injEq, UrlAuthority.mk.injEq, String.ofList_toList] at hparsed
  exact hparsed.2.2.1.symm

/-- A path without control characters on the host of a URI makes a URL that is read. -/
theorem parse_own_ok (hurl : FollowsStandard urlParse) {url path : String} {uri : MizuUri}
    (h : MizuUri.parse urlParse url = .ok uri) (hpath : startsWith "/" path = true)
    (hcontrol : ∀ c ∈ path.toList, ¬c.toNat < 0x20 ∧ c.toNat ≠ 0x7f) :
    ∃ own, MizuUri.parse urlParse ("mizu://" ++ uri.domain ++ path) = .ok own ∧ own.domain = uri.domain := by
  obtain ⟨hne, cs, hserial⟩ := serial_of_parse hurl h
  have hwell : isWellformedMizuHost uri.domain = true := by
    have hwell := wellformed_serial hserial hne
    rwa [String.ofList_toList] at hwell
  have hall : ∀ c ∈ ("mizu://" ++ uri.domain ++ path).toList, ¬c.toNat < 0x20 ∧ c.toNat ≠ 0x7f := by
    intro c hc
    rw [String.toList_append, String.toList_append, List.mem_append, List.mem_append] at hc
    rcases hc with (hc | hc) | hc
    · exact (by simp : ∀ c ∈ "mizu://".toList, ¬c.toNat < 0x20 ∧ c.toNat ≠ 0x7f) c hc
    · obtain ⟨-, hlow, hhigh⟩ := serial_char hserial c hc
      omega
    · exact hcontrol c hc
  obtain ⟨own, -, hown, -⟩ := parse_of_wellformed hurl hall (mizuDomain_own hserial hne hpath) hwell
  exact ⟨own, hown, parse_own hurl h hpath hown⟩

end Own

end Mizu
