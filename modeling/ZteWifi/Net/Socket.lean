import ZteWifi.Text.Ascii

/-!
# Sockets

What `recv` and `write` do, as scripts of results that the surroundings supply, and the two loops
of the servers around them: `recv_exact` and `write_all`.
-/

namespace Net

/-! ## 1. Receiving -/

/-- What the next `recv` finds: bytes that have arrived, a signal (`EINTR`), or an error.  Behind the
last the peer has closed. -/
inductive Recv
  | data (bs : List UInt8)
  | intr
  | error
  deriving DecidableEq, Repr

/-- What is left when at most `cap` of the bytes that have arrived are taken. -/
def unread (cap : Nat) (bs : List UInt8) (later : List Recv) : List Recv :=
  if bs.length ≤ cap then later else .data (bs.drop cap) :: later

/-- All the bytes that a script lets arrive. -/
def received (rs : List Recv) : List UInt8 :=
  rs.flatMap fun
    | .data bs => bs
    | _ => []

/-- A measure of what is left of a script, which every `recv` makes smaller. -/
def pending (rs : List Recv) : Nat := (received rs).length + rs.length

/-- The loop of `recv_exact` with `got` bytes received of the `n` that are wanted; `none` is the
result `-1`. -/
def recvExactLoop (n : Nat) (got : List UInt8) : List Recv → Option (List UInt8) × List Recv
  | [] => if got.length < n then (none, []) else (some got, [])
  | r :: later =>
    if got.length < n then
      match r with
      | .intr => recvExactLoop n got later
      | .error => (none, later)
      | .data bs =>
        -- `recv` returns 0 when the peer has closed
        if bs = [] then (none, later)
        else if bs.length ≤ n - got.length then recvExactLoop n (got ++ bs) later
        else (some (got ++ bs.take (n - got.length)), unread (n - got.length) bs later)
    else (some got, r :: later)

/-- `recv_exact` -/
def recvExact (n : Nat) (rs : List Recv) : Option (List UInt8) × List Recv :=
  recvExactLoop n [] rs

/-! ## 2. Sending -/

/-- The result of a `write`: at most this many bytes taken, a signal, or an error.  Behind the last
everything is taken. -/
inductive Write
  | took (n : Nat)
  | intr
  | error
  deriving DecidableEq, Repr

/-- `write_all`: whether it succeeded, the bytes that were taken, and the results left. -/
def writeAll : List UInt8 → List Write → Bool × List UInt8 × List Write
  | bs, [] => (true, bs, [])
  | bs, w :: later =>
    if bs = [] then (true, [], w :: later)
    else
      match w with
      | .intr => writeAll bs later
      | .error => (false, [], later)
      | .took n =>
        -- a `write` of nothing is a failure
        if n = 0 then (false, [], later)
        else
          let (ok, taken, ws) := writeAll (bs.drop n) later
          (ok, bs.take n ++ taken, ws)

/-! ## 3. What the loops guarantee -/

theorem received_data (bs : List UInt8) (rs : List Recv) :
    received (.data bs :: rs) = bs ++ received rs := List.flatMap_cons

theorem received_intr (rs : List Recv) : received (.intr :: rs) = received rs := List.flatMap_cons

theorem received_unread (cap : Nat) (bs : List UInt8) (rs : List Recv) :
    bs.take cap ++ received (unread cap bs rs) = bs ++ received rs := by
  rw [unread]
  split
  · next hle => rw [List.take_of_length_le hle]
  · rw [received_data, ← List.append_assoc, List.take_append_drop]

theorem pending_intr (rs : List Recv) : pending rs < pending (.intr :: rs) := by
  rw [pending, pending, received_intr, List.length_cons]
  omega

theorem pending_unread {cap : Nat} (hcap : 0 < cap) {bs : List UInt8} (hbs : bs ≠ [])
    (rs : List Recv) : pending (unread cap bs rs) < pending (.data bs :: rs) := by
  have hpos := List.length_pos_iff.mpr hbs
  rw [pending, pending, unread]
  split
  · rw [received_data, List.length_append, List.length_cons]
    omega
  · rw [received_data, received_data, List.length_append, List.length_append, List.length_drop,
      List.length_cons, List.length_cons]
    omega

/-- A stream of bytes in the chunks and between the signals in which it arrives. -/
inductive Arrives : List Recv → List UInt8 → Prop
  | nil : Arrives [] []
  | data {bs : List UInt8} {rs : List Recv} {s : List UInt8} (hbs : bs ≠ []) (h : Arrives rs s) :
      Arrives (.data bs :: rs) (bs ++ s)
  | intr {rs : List Recv} {s : List UInt8} (h : Arrives rs s) : Arrives (.intr :: rs) s

theorem arrives_whole {s : List UInt8} (h : s ≠ []) : Arrives [.data s] s := by
  have harrives := Arrives.data h .nil
  rwa [List.append_nil] at harrives

theorem Arrives.append {rs rs' : List Recv} {s s' : List UInt8} (h : Arrives rs s)
    (h' : Arrives rs' s') : Arrives (rs ++ rs') (s ++ s') := by
  induction h with
  | nil => exact h'
  | data hbs _ ih =>
    rw [List.append_assoc]
    exact .data hbs ih
  | intr _ ih => exact .intr ih

theorem recvExactLoop_full {n : Nat} {got : List UInt8} (h : ¬ got.length < n) (rs : List Recv) :
    recvExactLoop n got rs = (some got, rs) := by
  rw [recvExactLoop.eq_def]
  cases rs <;> exact if_neg h

theorem recvExactLoop_arrives {n : Nat} {got a b s : List UInt8} {rs : List Recv}
    (h : Arrives rs s) (hs : s = a ++ b) (hn : got.length + a.length = n) :
    ∃ rs', recvExactLoop n got rs = (some (got ++ a), rs') ∧ Arrives rs' b := by
  by_cases ha : a = []
  · subst ha hs
    refine ⟨rs, ?_, h⟩
    rw [recvExactLoop_full (by rw [← hn, List.length_nil]; omega), List.append_nil]
  have hlt : got.length < n := by
    have hpos := List.length_pos_iff.mpr ha
    omega
  induction h generalizing got a with
  | nil => exact absurd (List.append_eq_nil_iff.mp hs.symm).1 ha
  | intr _ ih =>
    rw [recvExactLoop, if_pos hlt]
    exact ih hs hn ha hlt
  | @data bs rs s hbs h ih =>
    rw [recvExactLoop, if_pos hlt]
    simp only [if_neg hbs]
    by_cases hle : bs.length ≤ n - got.length
    · obtain ⟨a', rfl, rfl⟩ : ∃ a', a = bs ++ a' ∧ s = a' ++ b := by
        rcases List.append_eq_append_iff.mp hs with ⟨u, ha', hs'⟩ | ⟨u, hbs', hb⟩
        · exact ⟨u, ha', hs'⟩
        · have hu : u = [] := by
            have hlen := congrArg List.length hbs'
            rw [List.length_append] at hlen
            exact List.eq_nil_of_length_eq_zero (by omega)
          subst hu
          exact ⟨[], by rw [hbs', List.append_nil, List.append_nil], hb.symm⟩
      rw [if_pos hle]
      rw [List.length_append] at hn
      by_cases ha' : a' = []
      · subst ha'
        refine ⟨rs, ?_, h⟩
        rw [List.append_nil, recvExactLoop_full (by rw [List.length_append]; simp at hn; omega)]
      · have hpos := List.length_pos_iff.mpr ha'
        obtain ⟨rs', hrun, hrest⟩ := ih rfl
          (show (got ++ bs).length + a'.length = n by rw [List.length_append]; omega) ha'
          (by rw [List.length_append]; omega)
        exact ⟨rs', by rw [hrun, List.append_assoc], hrest⟩
    · obtain ⟨u, rfl, rfl⟩ : ∃ u, bs = a ++ u ∧ b = u ++ s := by
        rcases List.append_eq_append_iff.mp hs with ⟨u, ha', hs'⟩ | ⟨u, hbs', hb⟩
        · have hlen := congrArg List.length ha'
          rw [List.length_append] at hlen
          omega
        · exact ⟨u, hbs', hb⟩
      have hcap : n - got.length = a.length := by omega
      have hu : u ≠ [] := by
        rintro rfl
        rw [List.append_nil] at hle
        omega
      rw [if_neg hle, hcap, List.take_left, unread, if_neg (by rwa [← hcap]), List.drop_left]
      exact ⟨_, rfl, .data hu h⟩

/-- Exactly the next `n` bytes of the stream are received. -/
theorem recvExact_arrives {n : Nat} {a b : List UInt8} {rs : List Recv} (h : Arrives rs (a ++ b))
    (hn : a.length = n) : ∃ rs', recvExact n rs = (some a, rs') ∧ Arrives rs' b :=
  recvExactLoop_arrives h rfl (by rw [List.length_nil, Nat.zero_add, hn])

theorem recvExactLoop_length {n : Nat} {got bs : List UInt8} {rs rs' : List Recv}
    (h : recvExactLoop n got rs = (some bs, rs')) (hgot : got.length ≤ n) : bs.length = n := by
  induction rs generalizing got with
  | nil =>
    rw [recvExactLoop] at h
    split at h
    · cases h
    · cases h
      omega
  | cons r rs ih =>
    rw [recvExactLoop.eq_def] at h
    simp only at h
    split at h
    · cases r with
      | intr => exact ih h hgot
      | error => cases h
      | data cs =>
        simp only at h
        split at h
        · cases h
        · split at h
          · refine ih h ?_
            rw [List.length_append]
            omega
          · cases h
            rw [List.length_append, List.length_take]
            omega
    · cases h
      omega

theorem recvExact_length {n : Nat} {bs : List UInt8} {rs rs' : List Recv}
    (h : recvExact n rs = (some bs, rs')) : bs.length = n :=
  recvExactLoop_length h (Nat.zero_le n)

/-- The results on which `write_all` gives up. -/
def Write.Fails (w : Write) : Prop := w = .error ∨ w = .took 0

/-- Whatever the results, a first part is written. -/
theorem writeAll_isPrefix (bs : List UInt8) (ws : List Write) : (writeAll bs ws).2.1 <+: bs := by
  induction ws generalizing bs with
  | nil => exact List.prefix_refl bs
  | cons w ws ih =>
    rw [writeAll.eq_def]
    simp only
    split
    · exact List.nil_prefix
    · cases w with
      | intr => exact ih bs
      | error => exact List.nil_prefix
      | took n =>
        simp only
        split
        · exact List.nil_prefix
        · conv =>
            rhs
            rw [← List.take_append_drop n bs]
          exact (List.prefix_append_right_inj _).mpr (ih _)

theorem writeAll_ok {bs : List UInt8} {ws : List Write} (h : (writeAll bs ws).1 = true) :
    (writeAll bs ws).2.1 = bs := by
  induction ws generalizing bs with
  | nil => rfl
  | cons w ws ih =>
    rw [writeAll.eq_def] at h ⊢
    simp only at h ⊢
    split at h
    · next hbs =>
      rw [if_pos hbs]
      exact hbs.symm
    · next hbs =>
      rw [if_neg hbs]
      cases w with
      | intr => exact ih h
      | error => cases h
      | took n =>
        simp only at h ⊢
        split at h
        · cases h
        · next hn =>
          rw [if_neg hn]
          simp only at h ⊢
          rw [ih h, List.take_append_drop]

/-- Without a failure everything is written, and the results that are left have none either. -/
theorem writeAll_of_not_fails (bs : List UInt8) {ws : List Write} (h : ∀ w ∈ ws, ¬ w.Fails) :
    (writeAll bs ws).1 = true ∧ ∀ w ∈ (writeAll bs ws).2.2, ¬ w.Fails := by
  induction ws generalizing bs with
  | nil => exact ⟨rfl, nofun⟩
  | cons w ws ih =>
    have hrest : ∀ w ∈ ws, ¬ w.Fails := fun w hw => h w (List.mem_cons_of_mem _ hw)
    rw [writeAll.eq_def]
    simp only
    split
    · exact ⟨rfl, h⟩
    · cases w with
      | intr => exact ih _ hrest
      | error => exact absurd (.inl rfl) (h .error List.mem_cons_self)
      | took n =>
        have hn : n ≠ 0 := fun hn => h (.took n) List.mem_cons_self (.inr (by rw [hn]))
        simp only [if_neg hn]
        exact ih _ hrest

end Net
