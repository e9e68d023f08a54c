import ZteWifi.Neatvi.PlainSearch

/-!
# The substitute command of the editor

What `ec_substitute` does with a line.  It puts the text before a match and what replaces the match
into a buffer, goes on behind the match, and leaves the rest of the line as it is.
-/

open Ascii Backtrack

namespace Neatvi

/-! ## 1. The functions -/

/-- `sbuf_mem` of a range of the string; `none` is a range that is not in the string. -/
def rangeOf (ln : List UInt8) (r : Regmatch) : Option (List UInt8) :=
  if r.1 = r.2 then some []
  else if 0 ≤ r.1 ∧ r.1 ≤ r.2 ∧ r.2 ≤ ln.length then
    some ((ln.drop r.1.toNat).take (r.2 - r.1).toNat)
  else none

/-- `replace`: what it appends; `none` is that it reads an offset that no search has set, or memory
outside of the string. -/
def replaceRep (ln : List UInt8) (offs : List Regmatch) : List UInt8 → Option (List UInt8)
  | [] => some []
  | [c] => some [c]
  | c :: d :: rep =>
    if c = 0x5C then
      if isdigit d then
        match offs[(d - 0x30).toNat]? with
        | none => none
        | some r =>
          match rangeOf ln r with
          | none => none
          | some t => (replaceRep ln offs rep).map (t ++ ·)
      else (replaceRep ln offs rep).map (d :: ·)
    else (replaceRep ln offs (d :: rep)).map (c :: ·)

/-- What the loop of `ec_substitute` does behind a match that ends at `eo`: what it copies, and
where it goes on. -/
def pastMatch (ln : List UInt8) (eo : Int) : Option (List UInt8 × List UInt8) :=
  if eo < 0 ∨ ln.length < eo then none
  else if eo ≤ 0 then
    -- a match of zero length
    match ln with
    | [] => none
    | c :: rest => some ([c], rest)
  else some ([], ln.drop eo.toNat)

/-- The loop of `ec_substitute` over a line from `ln` on; `before` is the byte in front of it and
`sb` is what has been put into the buffer.  `none` is that a search does not end, or that something
is read that is not there. -/
def substLoop (rs : Rstr) (xrep : List UInt8) (g : Bool) (fuel : Nat) :
    Nat → UInt8 → List UInt8 → List UInt8 → Option (List UInt8)
  | 0, _, _, _ => none
  | n + 1, before, ln, sb =>
    match rstrFind rs before ln 16 {} fuel with
    | none => none
    | some none => some (sb ++ ln)
    | some (some (_, offs)) =>
      match offs[0]? with
      | none => none
      | some (so, eo) =>
        match rangeOf ln (0, so), replaceRep ln offs xrep, pastMatch ln eo with
        | some gap, some filled, some (copied, rest) =>
          let sb := sb ++ (gap ++ filled ++ copied)
          if rest.getD 0 0 = 0 ∨ rest.getD 0 0 = nl ∨ g = false then some (sb ++ rest)
          else
            let passed := ln.take (ln.length - rest.length)
            substLoop rs xrep g fuel n (passed.getLastD before) rest sb
        | _, _, _ => none

/-- What `ec_substitute` makes of a line; `some none` is that it leaves the line alone. -/
def ecSubstituteLine (rs : Rstr) (xrep : List UInt8) (g : Bool) (fuel : Nat) (before : UInt8)
    (ln : List UInt8) : Option (Option (List UInt8)) :=
  match rstrFind rs before ln 16 {} fuel with
  | none => none
  | some none => some none
  | some (some _) => (substLoop rs xrep g fuel (ln.length + 1) before ln []).map some

/-! ## 2. What a search gives -/

/-- The groups that the replacement refers to. -/
def references : List UInt8 → List Nat
  | [] => []
  | [_] => []
  | c :: d :: rep =>
    if c = 0x5C then
      if isdigit d then (d - 0x30).toNat :: references rep else references rep
    else references (d :: rep)

/-- The search of the string ends, and what it finds is in the string; the groups that are referred
to are set. -/
def Bounded (rs : Rstr) (xrep : List UInt8) (fuel : Nat) (before : UInt8) (s : List UInt8) : Prop :=
  rstrFind rs before s 16 {} fuel = some none ∨
  ∃ (i : Nat) (offs : List Regmatch) (so eo : Nat),
    rstrFind rs before s 16 {} fuel = some (some (i, offs)) ∧
    offs[0]? = some ((so : Int), (eo : Int)) ∧ so ≤ eo ∧ eo ≤ s.length ∧
    (∀ r ∈ offs, Inside s.length r) ∧ ∀ k ∈ references xrep, k < offs.length

theorem rangeOf_inside {ln : List UInt8} {r : Regmatch} (h : Inside ln.length r) :
    ∃ t, rangeOf ln r = some t := by
  unfold rangeOf
  split
  · exact ⟨_, rfl⟩
  · next hne =>
    rcases h with rfl | h
    · exact absurd rfl hne
    · rw [if_pos h]
      exact ⟨_, rfl⟩

theorem rangeOf_gap {ln : List UInt8} {so : Nat} (h : so ≤ ln.length) :
    rangeOf ln (0, (so : Int)) = some (ln.take so) := by
  unfold rangeOf
  split
  · next hzero =>
    have hso : so = 0 := by
      simp only at hzero
      omega
    rw [hso, List.take_zero]
  · rw [if_pos ⟨Int.le_refl 0, Int.natCast_nonneg so, Int.ofNat_le.mpr h⟩]
    simp

/-- The replacement reads nothing that is not there. -/
theorem replaceRep_inside {ln : List UInt8} {offs : List Regmatch}
    (hoffs : ∀ r ∈ offs, Inside ln.length r) {rep : List UInt8}
    (hrep : ∀ k ∈ references rep, k < offs.length) : ∃ t, replaceRep ln offs rep = some t := by
  induction rep using references.induct with
  | case1 => exact ⟨_, rfl⟩
  | case2 c => exact ⟨_, rfl⟩
  | case3 d rep hdigit ih =>
    rw [references, if_pos rfl, if_pos hdigit] at hrep
    obtain ⟨hhead, htail⟩ := List.forall_mem_cons.mp hrep
    obtain ⟨t, ht⟩ := ih htail
    obtain ⟨u, hu⟩ := rangeOf_inside (hoffs _ (List.getElem_mem hhead))
    rw [replaceRep, if_pos rfl, if_pos hdigit, List.getElem?_eq_getElem hhead]
    simp only [hu, ht]
    exact ⟨_, rfl⟩
  | case4 d rep hdigit ih =>
    rw [references, if_pos rfl, if_neg hdigit] at hrep
    obtain ⟨t, ht⟩ := ih hrep
    rw [replaceRep, if_pos rfl, if_neg hdigit, ht]
    exact ⟨_, rfl⟩
  | case5 c d rep hc ih =>
    rw [references, if_neg hc] at hrep
    obtain ⟨t, ht⟩ := ih hrep
    rw [replaceRep, if_neg hc, ht]
    exact ⟨_, rfl⟩

/-! ## 3. A line in pieces -/

/-- A match with what is before it: the text, what replaces it, and what is copied behind it. -/
structure Piece where
  gap : List UInt8
  text : List UInt8
  filled : List UInt8
  copied : List UInt8

def Piece.old (p : Piece) : List UInt8 := p.gap ++ p.text ++ p.copied

def Piece.new (p : Piece) : List UInt8 := p.gap ++ p.filled ++ p.copied

/-- The piece is what the search finds in the string: the text is what is matched, and one byte is
copied behind it if the match is empty and at the start. -/
def Piece.FoundIn (rs : Rstr) (xrep : List UInt8) (fuel : Nat) (p : Piece) (before : UInt8)
    (s : List UInt8) : Prop :=
  ∃ (i : Nat) (offs : List Regmatch), rstrFind rs before s 16 {} fuel = some (some (i, offs)) ∧
    offs[0]? = some ((p.gap.length : Int), ((p.gap.length + p.text.length : Nat) : Int)) ∧
    replaceRep s offs xrep = some p.filled ∧
    p.copied.length = if p.gap ++ p.text = [] then 1 else 0

/-- The line is cut into such pieces, one behind the other, and the rest; the last byte of a piece
is the one in front of the next. -/
def Cut (rs : Rstr) (xrep : List UInt8) (fuel : Nat) :
    UInt8 → List UInt8 → List Piece → List UInt8 → Prop
  | _, s, [], rest => s = rest
  | before, s, p :: ps, rest =>
    p.FoundIn rs xrep fuel before s ∧
      ∃ s', s = p.old ++ s' ∧ Cut rs xrep fuel (p.old.getLastD before) s' ps rest

theorem Cut.old {rs : Rstr} {xrep : List UInt8} {fuel : Nat} {before : UInt8} {s rest : List UInt8}
    {ps : List Piece} (h : Cut rs xrep fuel before s ps rest) :
    s = ps.flatMap Piece.old ++ rest := by
  induction ps generalizing before s with
  | nil => exact h
  | cons p ps ih =>
    obtain ⟨-, s', rfl, hcut⟩ := h
    rw [List.flatMap_cons, List.append_assoc, ← ih hcut]

/-- Nothing is left to be replaced. -/
def Ended (rs : Rstr) (g : Bool) (fuel : Nat) (before : UInt8) (ps : List Piece)
    (rest : List UInt8) : Prop :=
  if g then
    rest = [] ∨ rest.head? = some nl ∨
      rstrFind rs ((ps.flatMap Piece.old).getLastD before) rest 16 {} fuel = some none
  else ps.length ≤ 1

theorem getLastD_append (l l' : List UInt8) (before : UInt8) :
    (l ++ l').getLastD before = l'.getLastD (l.getLastD before) := by
  induction l generalizing before with
  | nil => rfl
  | cons c l ih => rw [List.cons_append, List.getLastD_cons, List.getLastD_cons, ih]

section
variable {rs : Rstr} {xrep : List UInt8} {g : Bool} {fuel : Nat} {before : UInt8}

/-- One match: the piece that is found, and what the loop goes on with. -/
theorem piece_found {s : List UInt8} (hs : s ≠ []) {i so eo : Nat} {offs : List Regmatch}
    (hfind : rstrFind rs before s 16 {} fuel = some (some (i, offs)))
    (hoff : offs[0]? = some ((so : Int), (eo : Int))) (hle : so ≤ eo) (hlen : eo ≤ s.length)
    {filled : List UInt8} (hfilled : replaceRep s offs xrep = some filled) :
    ∃ (p : Piece) (rest : List UInt8), p.FoundIn rs xrep fuel before s ∧ s = p.old ++ rest ∧
      p.gap = s.take so ∧ p.filled = filled ∧ pastMatch s eo = some (p.copied, rest) ∧
      rest.length < s.length := by
  have hgap : (s.take so).length = so := List.length_take_of_le (by omega)
  have htext : ((s.take eo).drop so).length = eo - so := by
    rw [List.length_drop, List.length_take_of_le hlen]
  have hsplit : s.take so ++ (s.take eo).drop so = s.take eo := by
    have hfront : s.take so = (s.take eo).take so := by
      rw [List.take_take, Nat.min_eq_left hle]
    rw [hfront, List.take_append_drop]
  rcases Nat.eq_zero_or_pos eo with rfl | hpos
  · obtain rfl : so = 0 := by omega
    cases s with
    | nil => exact absurd rfl hs
    | cons c rest =>
      refine ⟨⟨[], [], filled, [c]⟩, rest, ⟨i, offs, hfind, hoff, hfilled, rfl⟩, rfl, rfl, rfl, ?_,
        Nat.lt_succ_self _⟩
      unfold pastMatch
      have hlen' : ¬ ((0 : Nat) : Int) < 0 ∧ ¬ ((c :: rest).length : Int) < ((0 : Nat) : Int) := by
        omega
      rw [if_neg (not_or.mpr hlen'), if_pos (show ((0 : Nat) : Int) ≤ 0 from Int.le_refl 0)]
  · refine ⟨⟨s.take so, (s.take eo).drop so, filled, []⟩, s.drop eo,
      ⟨i, offs, hfind, ?_, hfilled, ?_⟩, ?_, rfl, rfl, ?_, ?_⟩
    · simp only [hgap, htext]
      rw [hoff, show so + (eo - so) = eo by omega]
    · have hne : s.take so ++ (s.take eo).drop so ≠ [] := by
        rw [hsplit]
        intro hnil
        have hzero := congrArg List.length hnil
        rw [List.length_take_of_le hlen, List.length_nil] at hzero
        omega
      simp only [if_neg hne, List.length_nil]
    · rw [Piece.old, List.append_nil, hsplit, List.take_append_drop]
    · unfold pastMatch
      rw [if_neg (by omega), if_neg (by omega), Int.toNat_natCast]
    · rw [List.length_drop]
      omega

/-- The loop cuts the string and puts its pieces together again with what replaces them. -/
theorem substLoop_cut (n : Nat) {s : List UInt8} (hn : s.length < n) (hs : s ≠ [])
    (hzero : (0 : UInt8) ∉ s) (hbounded : ∀ b s', s' <:+ s → Bounded rs xrep fuel b s')
    (before : UInt8) (sb : List UInt8) :
    ∃ (ps : List Piece) (rest : List UInt8), Cut rs xrep fuel before s ps rest ∧
      Ended rs g fuel before ps rest ∧ (ps = [] → rstrFind rs before s 16 {} fuel = some none) ∧
      substLoop rs xrep g fuel n before s sb = some (sb ++ (ps.flatMap Piece.new ++ rest)) := by
  induction n generalizing s before sb with
  | zero => exact absurd hn (Nat.not_lt_zero _)
  | succ n ih =>
    rw [substLoop]
    rcases hbounded before s (List.suffix_refl s) with
      hnone | ⟨i, offs, so, eo, hfind, hoff, hle, hlen, hinside, href⟩
    · refine ⟨[], s, rfl, ?_, fun _ => hnone, ?_⟩
      · unfold Ended
        split
        · exact .inr (.inr hnone)
        · exact Nat.zero_le 1
      · rw [hnone]
        rfl
    · obtain ⟨filled, hfilled⟩ := replaceRep_inside hinside href
      obtain ⟨p, rest, hfound, hold, hgap, hpfilled, hpast, hshort⟩ :=
        piece_found hs hfind hoff hle hlen hfilled
      have hrange := @rangeOf_gap s so (Nat.le_trans hle hlen)
      simp only [hfind, hoff, hrange, hfilled, hpast]
      rw [← hgap, ← hpfilled, ← Piece.new]
      have hsuffix : rest <:+ s := ⟨p.old, hold.symm⟩
      split
      · next hstop =>
        refine ⟨[p], rest, ⟨hfound, rest, hold, rfl⟩, ?_,
          fun hnil => absurd hnil (List.cons_ne_nil _ _), ?_⟩
        · unfold Ended
          split
          · next hg =>
            cases rest with
            | nil => exact .inl rfl
            | cons c rest =>
              rcases hstop with hc | hc | hnot
              · exact absurd (hsuffix.subset (hc ▸ List.mem_cons_self)) hzero
              · exact .inr (.inl (congrArg some hc))
              · rw [hg] at hnot
                cases hnot
          · exact Nat.le_refl 1
        · rw [List.flatMap_singleton, List.append_assoc]
      · next hgo =>
        have hg : g = true := by
          rw [← Bool.not_eq_false]
          exact fun hnot => hgo (.inr (.inr hnot))
        have hrest : rest ≠ [] := fun hnil => hgo (.inl (by rw [hnil]; rfl))
        have hpassed : s.take (s.length - rest.length) = p.old := by
          have hlen : s.length - rest.length = p.old.length := by
            rw [hold, List.length_append, Nat.add_sub_cancel]
          rw [hlen, hold, List.take_left]
        obtain ⟨ps, rest', hcut, hended, -, hloop⟩ := ih (by omega) hrest
          (fun hmem => hzero (hsuffix.subset hmem))
          (fun b s' hs' => hbounded b s' (hs'.trans hsuffix)) (p.old.getLastD before) (sb ++ p.new)
        refine ⟨p :: ps, rest', ⟨hfound, rest, hold, hcut⟩, ?_,
          fun hnil => absurd hnil (List.cons_ne_nil _ _), ?_⟩
        · rw [Ended, if_pos hg] at hended ⊢
          rwa [List.flatMap_cons, getLastD_append]
        · rw [hpassed, hloop, List.flatMap_cons, List.append_assoc, List.append_assoc]

end

/-! ## 4. Searches that keep to the string -/

theorem plain_congr {flg flg' : ReFlg} (h : flg.icase = flg'.icase) (n : Rnode) :
    n.plain flg = n.plain flg' := by
  induction n with
  | null => rfl
  | node rn ra c1 c2 mincnt maxcnt grp ih1 ih2 =>
    rw [Rnode.plain, Rnode.plain, ih1, ih2, Ratom.plain, Ratom.plain, h]

/-- A search of a plain string sets the first group. -/
theorem plain_bounded {p : Plain} {xrep : List UInt8} (href : ∀ k ∈ references xrep, k = 0)
    (fuel : Nat) (before : UInt8) (s : List UInt8) : Bounded (.plain p) xrep fuel before s := by
  have hfirst := plainFind_first p before s {}
  have hrun : rstrFind (.plain p) before s 16 {} fuel =
      some ((plainFind p before s {}).map fun (r : Nat) =>
        (0, [((r : Int), ((r + p.str.length : Nat) : Int))])) := rfl
  unfold Bounded
  rw [hrun]
  cases hfind : plainFind p before s {} with
  | none => exact .inl rfl
  | some r =>
    rw [hfind] at hfirst
    obtain ⟨⟨-, hroom, -⟩, -⟩ := hfirst
    refine .inr ⟨0, _, r, r + p.str.length, rfl, rfl, Nat.le_add_right _ _, by omega, ?_, ?_⟩
    · intro x hx
      rw [List.mem_singleton.mp hx]
      exact .inr ⟨Int.natCast_nonneg r, Int.ofNat_le.mpr (Nat.le_add_right _ _),
        Int.ofNat_le.mpr (by omega)⟩
    · intro k hk
      rw [href k hk]
      exact Nat.one_pos

theorem references_lt (xrep : List UInt8) : ∀ k ∈ references xrep, k < 10 := by
  have hdigit : ∀ d : UInt8, isdigit d = true → (d - 0x30).toNat < 10 := by
    decide +kernel
  induction xrep using references.induct with
  | case1 => exact fun k hk => absurd hk List.not_mem_nil
  | case2 c => exact fun k hk => absurd hk List.not_mem_nil
  | case3 d rep hd ih =>
    rw [references, if_pos rfl, if_pos hd]
    exact List.forall_mem_cons.mpr ⟨hdigit d hd, ih⟩
  | case4 d rep hd ih =>
    rw [references, if_pos rfl, if_neg hd]
    exact ih
  | case5 c d rep hc ih =>
    rw [references, if_neg hc]
    exact ih

theorem inside_getD {len : Nat} {sub : List Regmatch} (h : ∀ r ∈ sub, Inside len r) (k : Nat) :
    Inside len (sub.getD k (-1, -1)) := by
  rcases Nat.lt_or_ge k sub.length with hlt | hge
  · rw [List.getD_eq_getElem _ _ hlt]
    exact h _ (List.getElem_mem hlt)
  · rw [List.getD_eq_default _ _ hge]
    exact .inl rfl

/-- The groups of one expression, of which the first is the match. -/
theorem setGroups_bounded {len cnt : Nat} {sub : List Regmatch} (h : ∀ r ∈ sub, Inside len r)
    (hset : 0 ≤ (sub.getD 2 (-1, -1)).1) :
    let offs := (List.range 16).map fun i =>
      if i < cnt + 1 then sub.getD (2 + i) (-1, -1) else (-1, -1)
    (∃ so eo : Nat, offs[0]? = some ((so : Int), (eo : Int)) ∧ so ≤ eo ∧ eo ≤ len) ∧
      (∀ r ∈ offs, Inside len r) ∧ offs.length = 16 := by
  intro offs
  refine ⟨?_, ?_, ?_⟩
  · have hfirst : offs[0]? = some (sub.getD 2 (-1, -1)) := rfl
    rcases inside_getD h 2 with hnone | ⟨hso, hle, heo⟩
    · rw [hnone] at hset
      exact absurd hset (by decide)
    · refine ⟨(sub.getD 2 (-1, -1)).1.toNat, (sub.getD 2 (-1, -1)).2.toNat, ?_, by omega, by omega⟩
      rw [hfirst, Int.toNat_of_nonneg hso, Int.toNat_of_nonneg (Int.le_trans hso hle)]
  · intro r hr
    obtain ⟨i, -, rfl⟩ := List.mem_map.mp hr
    split
    · exact inside_getD h _
    · exact .inl rfl
  · rw [List.length_map, List.length_range]

/-- The groups of a first match are ranges of the string. -/
theorem firstMatch_inside {tree : Rnode} (hnum : tree.NumberedFrom 1) {o : List UInt8}
    {flg eflg : ReFlg} (hplain : tree.plain flg = true) {subcnt nsub : Nat} {sub : List Regmatch}
    (h : FirstMatch (tree.wholePat o flg subcnt) (starts o eflg) (List.replicate nsub (-1, -1))
      sub) : ∀ r ∈ sub, Inside o.length r := by
  obtain ⟨pre, s, post, z, rest, hstarts, -, hout, rfl⟩ := h
  have hs : s ≤ o.length := by
    refine startsFrom_le _ (Nat.zero_le _) s (?_ : s ∈ starts o eflg)
    rw [hstarts]
    exact List.mem_append_right _ List.mem_cons_self
  obtain ⟨x, hx, hlead⟩ := hout.mem_iff.mp List.mem_cons_self
  rw [List.mem_singleton.mp hx] at hlead
  exact (wholePat_groups hnum hplain hs hlead).1

/-- A search of an expression ends and sets all groups. -/
theorem regex_bounded {re : List UInt8} {icase : Bool} {rs : Rset} {tree : Rnode}
    (hmake : rsetMake [some re] icase = some (some rs))
    (htree : regcompTree (0x28 :: 0x28 :: (re ++ [0x29, 0x29])) = some tree)
    (hprod : tree.productive = true) (hplain : tree.plain { icase := icase } = true)
    (xrep s : List UInt8) :
    ∃ m, ∀ fuel, m ≤ fuel → ∀ before, Bounded (.regex rs) xrep fuel before s := by
  rw [rsetMake_one] at hmake
  obtain ⟨o, ho, hmap⟩ := Option.map_eq_some_iff.mp hmake
  obtain ⟨regex, rfl, rfl⟩ := Option.map_eq_some_iff.mp hmap
  generalize hflg : ReFlg.mk false false true false false true = eflg
  generalize hcnt : reGroupcount re = cnt
  obtain ⟨m, hm⟩ := regexec_searched ho htree hprod s (2 + (1 + cnt)) eflg
  refine ⟨m, fun fuel hfuel before => ?_⟩
  have hgrpcnt : ¬ 2 + (1 + cnt) ≤ 2 := by omega
  have hrun : rstrFind (.regex ⟨regex, [2, ((2 + (1 + cnt) : Nat) : Int)], [cnt], 2 + (1 + cnt)⟩)
      before s 16 {} fuel = _ := if_neg hgrpcnt
  unfold Bounded
  rw [hrun]
  simp only [hflg]
  rcases hm fuel hfuel with ⟨sub, hexec, hfirst⟩ | ⟨hexec, -⟩
  · have hplain' : tree.plain (({ icase := icase } : ReFlg).or eflg) = true := by
      rw [← hplain, ← hflg]
      exact plain_congr (Bool.or_false _) tree
    have hinside := firstMatch_inside (regcompTree_numbered htree) hplain' hfirst
    simp only [hexec, Option.map_some, ne_eq, not_true_eq_false, if_false]
    by_cases hset : 0 ≤ (sub.getD 2 (-1, -1)).1
    · obtain ⟨⟨so, eo, hoff, hle, hlen⟩, hall, hlength⟩ :=
        @setGroups_bounded s.length cnt sub hinside hset
      have hmember : rsetSet ⟨regex, [2, ((2 + (1 + cnt) : Nat) : Int)], [cnt], 2 + (1 + cnt)⟩ sub =
          some 0 := by
        show (if (0 : Int) ≤ 2 ∧ 0 ≤ (sub.getD 2 (-1, -1)).1 then some 0 else none) = some 0
        rw [if_pos ⟨by decide, hset⟩]
      rw [hmember]
      refine .inr ⟨0, _, so, eo, rfl, hoff, hle, hlen, hall, fun k hk => ?_⟩
      have hlt := references_lt xrep k hk
      exact Nat.lt_of_lt_of_eq (show k < 16 by omega) hlength.symm
    · have hmember : rsetSet ⟨regex, [2, ((2 + (1 + cnt) : Nat) : Int)], [cnt], 2 + (1 + cnt)⟩ sub =
          none := by
        show (if (0 : Int) ≤ 2 ∧ 0 ≤ (sub.getD 2 (-1, -1)).1 then some 0 else none) = none
        rw [if_neg fun h => hset h.2]
      rw [hmember]
      exact .inl rfl
  · rw [hexec]
    exact .inl rfl

/-- One bound for the searches from all places of a string. -/
theorem exists_common_fuel {P : Nat → Nat → Prop} (h : ∀ k, ∃ m, ∀ fuel, m ≤ fuel → P k fuel)
    (n : Nat) : ∃ m, ∀ fuel, m ≤ fuel → ∀ k < n, P k fuel := by
  induction n with
  | zero => exact ⟨0, fun _ _ k hk => absurd hk (Nat.not_lt_zero k)⟩
  | succ n ih =>
    obtain ⟨m, hm⟩ := ih
    obtain ⟨m', hm'⟩ := h n
    refine ⟨max m m', fun fuel hfuel k hk => ?_⟩
    rcases Nat.lt_or_eq_of_le (Nat.le_of_lt_succ hk) with hlt | rfl
    · exact hm fuel (by omega) k hlt
    · exact hm' fuel (by omega)

/-! ## 5. The command -/

/-- A pattern that is plain, of which the replacement takes no groups, or an expression in which
what is repeated without end reads at least one byte; where the case is ignored its literals are
ASCII. -/
structure Usable (re : List UInt8) (icase : Bool) (xrep : List UInt8) (rs : Rstr) : Prop where
  plain : ∀ p, rs = .plain p → ∀ k ∈ references xrep, k = 0
  regex : ∀ set, rs = .regex set → ∃ tree,
    regcompTree (0x28 :: 0x28 :: (re ++ [0x29, 0x29])) = some tree ∧ tree.productive = true ∧
      tree.plain { icase := icase } = true

theorem Usable.bounded {re : List UInt8} {icase : Bool} {xrep : List UInt8} {rs : Rstr}
    (h : Usable re icase xrep rs) (hmake : rstrMake re icase = some (some rs)) (s : List UInt8) :
    ∃ m, ∀ fuel, m ≤ fuel → ∀ before, Bounded rs xrep fuel before s := by
  cases rs with
  | plain p => exact ⟨0, fun fuel _ before => plain_bounded (h.plain p rfl) fuel before s⟩
  | regex set =>
    obtain ⟨tree, htree, hprod, hplain⟩ := h.regex set rfl
    have hset : rsetMake [some re] icase = some (some set) := by
      unfold rstrMake at hmake
      split at hmake
      · cases hmake
      · obtain ⟨o, ho, hmap⟩ := Option.map_eq_some_iff.mp hmake
        obtain ⟨set', rfl, heq⟩ := Option.map_eq_some_iff.mp hmap
        cases heq
        exact ho
    exact regex_bounded hset htree hprod hplain xrep s

/-- The substitution of a line ends and reads nothing that is not there.  Either the pattern is not
found and the line is left alone, or the line is cut into pieces, each with the match that is found
next, and the pieces are put together with the replacements for the matches; what is before, between
and behind the matches stays.  Only one match is replaced without `g`, and with it all of them up to
the end of the line.  `before` is whatever stands in front of the line. -/
theorem ecSubstitute_pieces {re : List UInt8} {icase : Bool} {rs : Rstr}
    (hmake : rstrMake re icase = some (some rs)) {xrep : List UInt8}
    (h : Usable re icase xrep rs) (g : Bool) (before : UInt8) {ln : List UInt8} (hln : ln ≠ [])
    (hzero : (0 : UInt8) ∉ ln) :
    ∃ m, ∀ fuel, m ≤ fuel →
      (rstrFind rs before ln 16 {} fuel = some none ∧
        ecSubstituteLine rs xrep g fuel before ln = some none) ∨
      ∃ (ps : List Piece) (rest : List UInt8), ps ≠ [] ∧ Cut rs xrep fuel before ln ps rest ∧
        Ended rs g fuel before ps rest ∧ ln = ps.flatMap Piece.old ++ rest ∧
        ecSubstituteLine rs xrep g fuel before ln =
          some (some (ps.flatMap Piece.new ++ rest)) := by
  obtain ⟨m, hm⟩ := exists_common_fuel (fun k => h.bounded hmake (ln.drop k)) (ln.length + 1)
  refine ⟨m, fun fuel hfuel => ?_⟩
  have hbounded (b : UInt8) (s : List UInt8) (hs : s <:+ ln) : Bounded rs xrep fuel b s := by
    have hdrop := List.suffix_iff_eq_drop.mp hs
    rw [hdrop]
    exact hm fuel hfuel _ (by omega) b
  unfold ecSubstituteLine
  rcases hbounded before ln (List.suffix_refl ln) with hnone | ⟨i, offs, so, eo, hfind, -⟩
  · left
    rw [hnone]
    exact ⟨rfl, rfl⟩
  · right
    obtain ⟨ps, rest, hcut, hended, hnil, hloop⟩ :=
      @substLoop_cut rs xrep g fuel (ln.length + 1) ln (Nat.lt_succ_self _) hln hzero hbounded
        before []
    refine ⟨ps, rest, fun hps => ?_, hcut, hended, hcut.old, ?_⟩
    · rw [hfind] at hnil
      cases hnil hps
    · simp only [hfind, hloop]
      rfl

/-- `s/(a+)b/<\1>/g` on a line. -/
theorem ecSubstitute_pieces_group :
    ∃ rs, rstrMake (bytes "(a+)b") false = some (some rs) ∧ ∃ m, ∀ fuel, m ≤ fuel →
      (rstrFind rs 0 (bytes "xaabab\n") 16 {} fuel = some none ∧
        ecSubstituteLine rs (bytes "<\\1>") true fuel 0 (bytes "xaabab\n") = some none) ∨
      ∃ (ps : List Piece) (rest : List UInt8), ps ≠ [] ∧
        Cut rs (bytes "<\\1>") fuel 0 (bytes "xaabab\n") ps rest ∧ Ended rs true fuel 0 ps rest ∧
        bytes "xaabab\n" = ps.flatMap Piece.old ++ rest ∧
        ecSubstituteLine rs (bytes "<\\1>") true fuel 0 (bytes "xaabab\n") =
          some (some (ps.flatMap Piece.new ++ rest)) := by
  have hmake : ∃ set, rstrMake (bytes "(a+)b") false = some (some (.regex set)) := ⟨_, rfl⟩
  obtain ⟨set, hset⟩ := hmake
  refine ⟨_, hset, ecSubstitute_pieces hset ⟨?_, ?_⟩ true 0 ?_ ?_⟩
  · intro p hp
    cases hp
  · intro set' _
    refine ⟨(regcompTree (0x28 :: 0x28 :: (bytes "(a+)b" ++ [0x29, 0x29]))).getD .null, ?_⟩
    decide +kernel
  · decide +kernel
  · decide +kernel

end Neatvi
