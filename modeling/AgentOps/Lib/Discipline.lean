import AgentOps.Lib.Threads
import Mathlib

/-!
# Reasoning about one thread at a time

A discipline says what each thread promises when it performs an operation (`pre`). A
program is `Safe` for a thread if it keeps its promises in every run in which the other
threads keep theirs. The interference of the others is nothing else than their promised
operations, so one lemma about the memory for each operation (the invariant stays) and one
proof for each program give the invariant and the promises in every run.

Disciplines can be stacked: `given` is what an earlier discipline has established about
every operation of every run, and a proof about a later one may use it.
-/

namespace AgentOps.Lib

variable {S : Sig} {σ χ ε : Type} {M : System S σ χ ε}

variable {m : σ} {s : Config S σ} {op : S.Op} {e : S.Entry}

/-- A discipline over a system. -/
structure Discipline (M : System S σ χ ε) where
  /-- The invariant of the memory. -/
  inv : σ → Prop
  /-- What holds whenever thread `t` performs an operation. -/
  pre : ℕ → S.Op → σ → Prop
  /-- What holds whenever thread `t` starts a program. -/
  entry : ℕ → S.Entry → σ → Prop
  /-- What holds of a thread number that was never used. -/
  fresh : ℕ → σ → Prop
  /-- What holds whenever thread `t` starts a program as another thread. -/
  handover : ℕ → S.Entry → σ → Prop := fun _ _ _ => True
  /-- What is known already about every operation. -/
  given : ℕ → S.Op → σ → Prop := fun _ _ _ => True
  /-- The steps that are considered. -/
  allow : ℕ → S.Op → σ → χ → Prop := fun _ _ _ _ => True
  allowEnv : σ → ε → Prop := fun _ _ => True
  allowStart : σ → S.Entry → Prop := fun _ _ => True
  allowCrash : σ → Prop := fun _ => True

namespace Discipline

variable (D : Discipline M)

/-- The condition that the considered steps put on the steps of a run. -/
def ok (s : Config S σ) : ThreadLabel S χ ε → Prop
  | .run t c => ∀ op k, s.threads t = some (.act op k) → D.allow t op s.mem c
  | .start e => D.allowStart s.mem e
  | .env l => D.allowEnv s.mem l
  | .crash => D.allowCrash s.mem

/-- A step of another thread that keeps its promise, or of the environment. -/
inductive Other (t : ℕ) (m m' : σ) : Prop
  | act (u : ℕ) (op : S.Op) (c : χ) (r : S.Res op) (hne : u ≠ t) (hgiven : D.given u op m)
      (hpre : D.pre u op m) (hallow : D.allow u op m c) (hdo : M.perform u op m c = some (r, m'))
  | env (l : ε) (hallow : D.allowEnv m l) (hdo : M.env m l = some m')
  | start (u : Option ℕ) (e : S.Entry) (v : ℕ) (hne : u ≠ some t) (hv : v ≠ t)
      (hgive : ∀ w, u = some w → D.handover w e m) (hm : m' = M.started u e v m)

/-- What the others can do to the memory between two steps of thread `t`. -/
def Later (t : ℕ) : σ → σ → Prop :=
  Relation.ReflTransGen fun m m' => D.inv m ∧ D.Other t m m' ∧ D.inv m'

/-- The program keeps the promises of thread `t` from memory `m` on and returns only with
what `Q` says. -/
def Safe (t : ℕ) {α : Type} : Prog S α → (α → σ → Prop) → σ → Prop
  | .ret a, Q, m => Q a m
  | .act op k, Q, m => ∀ m', D.Later t m m' → D.inv m' → D.given t op m' →
      D.pre t op m' ∧ ∀ c r m'', D.allow t op m' c → M.perform t op m' c = some (r, m'') →
        D.inv m'' → Safe t (k r) Q m''
  | .spawn e k, Q, m => ∀ m', D.Later t m m' → D.inv m' → D.handover t e m' ∧
      ∀ u, u ≠ t → D.fresh u m' → D.inv (M.started (some t) e u m') →
        D.entry u e (M.started (some t) e u m') ∧ Safe t k Q (M.started (some t) e u m')
  | .jump e, _, m => ∀ m', D.Later t m m' → D.inv m' → D.entry t e m'

/-- The laws that make a discipline sound. -/
structure Lawful : Prop where
  inv_act : ∀ {t op m c r m'}, D.inv m → D.given t op m → D.pre t op m → D.allow t op m c →
    M.perform t op m c = some (r, m') → D.inv m'
  inv_env : ∀ {m l m'}, D.inv m → D.allowEnv m l → M.env m l = some m' → D.inv m'
  inv_start : ∀ {t e u m}, D.inv m → D.handover t e m → u ≠ t → D.fresh u m →
    D.inv (M.started (some t) e u m) := by exact fun h _ _ _ => h
  inv_call : ∀ {e u m}, D.inv m → D.allowStart m e → M.opens m e = true → D.fresh u m →
    D.inv (M.started none e u m) := by exact fun h _ _ _ => h
  inv_crash : ∀ {m}, D.inv m → D.allowCrash m → D.inv (M.crash m)
  fresh_other : ∀ {t m m'}, D.inv m → D.fresh t m → D.Other t m m' → D.fresh t m'
  fresh_crash : ∀ {t m}, D.inv m → D.fresh t m → D.allowCrash m → D.fresh t (M.crash m)
  entry_start : ∀ {t e m}, D.inv m → D.fresh t m → D.allowStart m e → M.opens m e = true →
    D.entry t e (M.started none e t m)
  entry_safe : ∀ {t e m}, D.inv m → D.entry t e m → D.Safe t (M.code e) (fun _ _ => True) m

/-- What a discipline says about a configuration. -/
structure Good (s : Config S σ) : Prop where
  inv : D.inv s.mem
  fresh : ∀ t, s.next ≤ t → D.fresh t s.mem ∧ s.threads t = none
  safe : ∀ t p, s.threads t = some p → D.Safe t p (fun _ _ => True) s.mem

variable {D}

theorem Safe.later {t : ℕ} {p : Prog S Unit} {m' : σ} (h : D.Safe t p (fun _ _ => True) m)
    (hl : D.Later t m m') : D.Safe t p (fun _ _ => True) m' := by
  cases p with
  | ret a => trivial
  | act op k => exact fun n hn => h n (hl.trans hn)
  | spawn e k => exact fun n hn => h n (hl.trans hn)
  | jump e => exact fun n hn => h n (hl.trans hn)

theorem Good.pre (h : D.Good s) {t : ℕ} {k : S.Res op → Prog S Unit}
    (ht : s.threads t = some (.act op k)) (hg : D.given t op s.mem) : D.pre t op s.mem :=
  (h.safe t _ ht s.mem .refl h.inv hg).1

/-- The same, of an operation that is about to be performed. -/
theorem Good.pre_pending (h : D.Good s) {t : ℕ} (ht : op ∈ System.pending s t)
    (hg : D.given t op s.mem) : D.pre t op s.mem := by
  obtain ⟨k, hk⟩ := System.exists_of_pending ht
  exact h.pre hk hg

/-- A condition on the operation that a thread is about to perform. -/
theorem ok_run {t : ℕ} {c : χ} (h : ∀ op ∈ System.pending s t, D.allow t op s.mem c) :
    D.ok s (.run t c) :=
  fun op _ hk => h op (System.mem_pending hk)

/-- A step that changes the memory as the others of every thread but `t` may, and thread
`t` itself to a safe program. -/
private theorem Good.update (h : D.Good s) {t : ℕ} {p : Prog S Unit} (hinv : D.inv m)
    (ht : t < s.next) (hp : D.Safe t p (fun _ _ => True) m)
    (hfresh : ∀ u, u ≠ t → D.fresh u s.mem → D.fresh u m)
    (hlater : ∀ u, u ≠ t → D.Later u s.mem m) :
    D.Good { s with mem := m, threads := Function.update s.threads t (some p) } where
  inv := hinv
  fresh := by
    intro u hu
    have hne : u ≠ t := by simp only at hu; omega
    refine ⟨hfresh u hne (h.fresh u hu).1, ?_⟩
    simpa only [Function.update_of_ne hne] using (h.fresh u hu).2
  safe := by
    intro u q hq
    obtain ⟨rfl, rfl⟩ | ⟨hne, hq⟩ := update_eq_some hq
    · exact hp
    · exact (h.safe u q hq).later (hlater u hne)

/-- A thread that starts. -/
private theorem Good.start (h : D.Good s) {p : Prog S Unit} (hinv : D.inv m)
    (hp : D.Safe s.next p (fun _ _ => True) m)
    (hfresh : ∀ u, u ≠ s.next → D.fresh u s.mem → D.fresh u m)
    (hlater : ∀ u, u ≠ s.next → D.Later u s.mem m) :
    D.Good { s with
      mem := m
      threads := Function.update s.threads s.next (some p)
      next := s.next + 1 } where
  inv := hinv
  fresh := by
    intro u hu
    have hne : u ≠ s.next := by simp only at hu; omega
    have hold := h.fresh u (by simp only at hu; omega)
    refine ⟨hfresh u hne hold.1, ?_⟩
    simpa only [Function.update_of_ne hne] using hold.2
  safe := by
    intro u q hq
    obtain ⟨rfl, rfl⟩ | ⟨hne, hq⟩ := update_eq_some hq
    · exact hp
    · exact (h.safe u q hq).later (hlater u hne)

/-- A thread that another one starts. -/
private theorem Good.startAt (h : D.Good s) {t : ℕ} {p q : Prog S Unit} (hinv : D.inv m)
    (ht : t < s.next) (hp : D.Safe t p (fun _ _ => True) m)
    (hq : D.Safe s.next q (fun _ _ => True) m)
    (hfresh : ∀ u, u ≠ t → u ≠ s.next → D.fresh u s.mem → D.fresh u m)
    (hlater : ∀ u, u ≠ t → u ≠ s.next → D.Later u s.mem m) :
    D.Good { s with
      mem := m
      threads := Function.update (Function.update s.threads t (some p)) s.next (some q)
      next := s.next + 1 } where
  inv := hinv
  fresh := by
    intro u hu
    have hnext : u ≠ s.next := by simp only at hu; omega
    have hne : u ≠ t := by simp only at hu; omega
    have hold := h.fresh u (by simp only at hu; omega)
    refine ⟨hfresh u hne hnext hold.1, ?_⟩
    simpa only [Function.update_of_ne hnext, Function.update_of_ne hne] using hold.2
  safe := by
    intro u r hr
    obtain ⟨rfl, rfl⟩ | ⟨hnext, hr⟩ := update_eq_some hr
    · exact hq
    · obtain ⟨rfl, rfl⟩ | ⟨hne, hr⟩ := update_eq_some hr
      · exact hp
      · exact (h.safe u r hr).later (hlater u hne hnext)

theorem Good.running_lt (h : D.Good s) {t : ℕ} {p : Prog S Unit} (ht : s.threads t = some p) :
    t < s.next := by
  by_contra hge
  have := (h.fresh t (by omega)).2
  rw [ht] at this
  cases this

/-- Every considered step keeps what the discipline says. -/
theorem Good.step (hD : D.Lawful) {s' : Config S σ} {l : ThreadLabel S χ ε} (h : D.Good s)
    (hgiven : ∀ t op k, s.threads t = some (.act op k) → D.given t op s.mem) (hok : D.ok s l)
    (hs : M.step s l = some s') : D.Good s' := by
  cases l with
  | run t c =>
    simp only [System.step] at hs
    cases ht : s.threads t with
    | none => rw [ht] at hs; cases hs
    | some p =>
      have hlt := h.running_lt ht
      rw [ht] at hs
      cases p with
      | ret a => cases hs
      | act op k =>
        simp only [Option.map_eq_some_iff] at hs
        obtain ⟨⟨r, m⟩, hdo, rfl⟩ := hs
        have hg := hgiven t op k ht
        have hallow := hok op k ht
        obtain ⟨hpre, hnext⟩ := h.safe t _ ht s.mem .refl h.inv hg
        have hinv := hD.inv_act h.inv hg hpre hallow hdo
        have hother : ∀ u, u ≠ t → D.Other u s.mem m := fun u hne =>
          .act t op c r hne.symm hg hpre hallow hdo
        exact h.update hinv hlt (hnext c r m hallow hdo hinv)
          (fun u hne hf => hD.fresh_other h.inv hf (hother u hne))
          (fun u hne => .single ⟨h.inv, hother u hne, hinv⟩)
      | spawn e k =>
        cases hs
        obtain ⟨hgive, hrest⟩ := h.safe t _ ht s.mem .refl h.inv
        have hne : s.next ≠ t := by omega
        have hf := (h.fresh s.next (Nat.le_refl _)).1
        have hinv := hD.inv_start h.inv hgive hne hf
        obtain ⟨hentry, hk⟩ := hrest s.next hne hf hinv
        have hother : ∀ u, u ≠ t → u ≠ s.next →
            D.Other u s.mem (M.started (some t) e s.next s.mem) := by
          intro u ht hn
          have hfrom : some t ≠ some u := fun heq => ht (Option.some.inj heq).symm
          exact .start (some t) e s.next hfrom hn.symm (fun w hw => Option.some.inj hw ▸ hgive) rfl
        exact h.startAt hinv hlt hk (hD.entry_safe hinv hentry)
          (fun u ht hn hf => hD.fresh_other h.inv hf (hother u ht hn))
          (fun u ht hn => .single ⟨h.inv, hother u ht hn, hinv⟩)
      | jump e =>
        cases hs
        have hentry := h.safe t _ ht s.mem .refl h.inv
        exact h.update h.inv hlt (hD.entry_safe h.inv hentry) (fun _ _ hf => hf)
          (fun _ _ => .refl)
  | start e =>
    simp only [System.step] at hs
    split at hs
    · rename_i hopen
      cases hs
      have hf := (h.fresh s.next (Nat.le_refl _)).1
      have hinv := hD.inv_call h.inv hok hopen hf
      have hother : ∀ u, u ≠ s.next → D.Other u s.mem (M.started none e s.next s.mem) :=
        fun u hn => .start none e s.next (Option.some_ne_none u).symm hn.symm
          (fun w hw => by cases hw) rfl
      exact h.start hinv (hD.entry_safe hinv (hD.entry_start h.inv hf hok hopen))
        (fun u hn hf => hD.fresh_other h.inv hf (hother u hn))
        (fun u hn => .single ⟨h.inv, hother u hn, hinv⟩)
    · cases hs
  | env l =>
    simp only [System.step, Option.map_eq_some_iff] at hs
    obtain ⟨m, hdo, rfl⟩ := hs
    have hinv := hD.inv_env h.inv hok hdo
    refine ⟨hinv, fun t ht => ?_, fun t p hp => ?_⟩
    · exact ⟨hD.fresh_other h.inv (h.fresh t ht).1 (.env l hok hdo), (h.fresh t ht).2⟩
    · exact (h.safe t p hp).later (.single ⟨h.inv, .env l hok hdo, hinv⟩)
  | crash =>
    cases hs
    refine ⟨hD.inv_crash h.inv hok, fun t ht => ⟨?_, rfl⟩, fun t p hp => by cases hp⟩
    exact hD.fresh_crash h.inv (h.fresh t ht).1 hok

/-- What the discipline says holds in every state of every run of considered steps, if what
it takes as given does. -/
theorem Lawful.sound (hD : D.Lawful) {s₀ : Config S σ} (h₀ : D.Good s₀)
    (hgiven : ∀ s, Reach M.step D.ok s₀ s → ∀ t op k, s.threads t = some (.act op k) →
      D.given t op s.mem) (h : Reach M.step D.ok s₀ s) : D.Good s := by
  induction h with
  | refl => exact h₀
  | tail hr hok hs ih => exact ih.step hD (hgiven _ hr) hok hs

/-! ## Rules for programs -/

variable (D) in
/-- The others cannot make `A` false. -/
def Stable (t : ℕ) (A : σ → Prop) : Prop :=
  ∀ m m', D.inv m → D.inv m' → D.Other t m m' → A m → A m'

theorem Stable.later {t : ℕ} {A : σ → Prop} (hA : D.Stable t A) {m' : σ} (h : D.Later t m m')
    (hm : A m) : A m' := by
  induction h with
  | refl => exact hm
  | tail _ hs ih => exact hA _ _ hs.1 hs.2.2 hs.2.1 ih

variable (D) in
/-- From a memory with `A` the program is safe and ends with `Q`. -/
structure Triple (t : ℕ) (A : σ → Prop) {α : Type} (p : Prog S α) (Q : α → σ → Prop) : Prop where
  run : ∀ m, D.inv m → A m → D.Safe t p (fun a m => D.inv m ∧ Q a m) m

variable {t : ℕ} {A A' : σ → Prop} {α β : Type} {Q Q' : α → σ → Prop}

theorem Triple.ret {a : α} (h : ∀ m, D.inv m → A m → Q a m) : D.Triple t A (.ret a) Q :=
  ⟨fun m hinv hm => ⟨hinv, h m hinv hm⟩⟩

theorem Triple.act {k : S.Res op → Prog S α} {B : S.Res op → σ → Prop} (hA : D.Stable t A)
    (hpre : ∀ m, D.inv m → D.given t op m → A m → D.pre t op m)
    (hpost : ∀ m c r m', D.inv m → D.given t op m → A m → D.allow t op m c →
      M.perform t op m c = some (r, m') → D.inv m' → B r m') (hk : ∀ r, D.Triple t (B r) (k r) Q) :
    D.Triple t A (.act op k) Q := by
  refine ⟨fun m _ hm n hn hinv hgiven => ?_⟩
  have hAn := hA.later hn hm
  refine ⟨hpre n hinv hgiven hAn, fun c r n' hallow hdo hinv' => ?_⟩
  exact (hk r).run n' hinv' (hpost n c r n' hinv hgiven hAn hallow hdo hinv')

/-- The program of one operation. -/
theorem Triple.perform {B : S.Res op → σ → Prop} (hA : D.Stable t A)
    (hpre : ∀ m, D.inv m → D.given t op m → A m → D.pre t op m)
    (hpost : ∀ m c r m', D.inv m → D.given t op m → A m → D.allow t op m c →
      M.perform t op m c = some (r, m') → D.inv m' → B r m') : D.Triple t A (Prog.perform op) B :=
  .act hA hpre hpost fun _ => .ret fun _ _ h => h

theorem Triple.start {k : Prog S α} (hA : D.Stable t A)
    (hgive : ∀ m, D.inv m → A m → D.handover t e m)
    (he : ∀ m u, D.inv m → A m → u ≠ t → D.fresh u m → D.inv (M.started (some t) e u m) →
      D.entry u e (M.started (some t) e u m) ∧ A' (M.started (some t) e u m))
    (hk : D.Triple t A' k Q) : D.Triple t A (.spawn e k) Q := by
  refine ⟨fun m _ hm n hn hinv => ?_⟩
  have hAn := hA.later hn hm
  refine ⟨hgive n hinv hAn, fun u hne hf hinv' => ?_⟩
  obtain ⟨hentry, hA'⟩ := he n u hinv hAn hne hf hinv'
  exact ⟨hentry, hk.run _ hinv' hA'⟩

/-- The same where nothing is written down. -/
theorem Triple.spawn {k : Prog S α} (hA : D.Stable t A)
    (he : ∀ m u, D.inv m → A m → u ≠ t → D.fresh u m → D.entry u e m) (hk : D.Triple t A k Q)
    (hsame : ∀ u m, M.started (some t) e u m = m := by exact fun _ _ => rfl)
    (hgive : ∀ m, D.handover t e m := by exact fun _ => trivial) : D.Triple t A (.spawn e k) Q := by
  refine .start hA (fun m _ _ => hgive m) (fun m u hinv hm hne hf _ => ?_) hk
  rw [hsame]
  exact ⟨he m u hinv hm hne hf, hm⟩

theorem Triple.jump (hA : D.Stable t A) (he : ∀ m, D.inv m → A m → D.entry t e m) :
    D.Triple t A (.jump e) Q :=
  ⟨fun _ _ hm n hn hinv => he n hinv (hA.later hn hm)⟩

theorem Safe.bind {p : Prog S α} {f : α → Prog S β} {R : β → σ → Prop} (hp : D.Safe t p Q m)
    (hf : ∀ a m, Q a m → D.Safe t (f a) R m) : D.Safe t (p >>= f) R m := by
  induction p generalizing m with
  | ret a => exact hf a m hp
  | act op k ih =>
    intro n hn hinv hgiven
    obtain ⟨hpre, hk⟩ := hp n hn hinv hgiven
    exact ⟨hpre, fun c r n' hallow hdo hinv' => ih r (hk c r n' hallow hdo hinv')⟩
  | spawn e k ih =>
    intro n hn hinv
    obtain ⟨hgive, hrest⟩ := hp n hn hinv
    exact ⟨hgive, fun u hne hf hinv' => (hrest u hne hf hinv').imp_right fun hk => ih hk⟩
  | jump e => exact hp

theorem Triple.bind {p : Prog S α} {f : α → Prog S β} {R : β → σ → Prop}
    (hp : D.Triple t A p Q) (hf : ∀ a, D.Triple t (Q a) (f a) R) :
    D.Triple t A (p >>= f) R :=
  ⟨fun m hinv hm => (hp.run m hinv hm).bind fun a n hn => (hf a).run n hn.1 hn.2⟩

theorem Safe.mono {p : Prog S α} (h : D.Safe t p Q m) (hQ : ∀ a m, Q a m → Q' a m) :
    D.Safe t p Q' m := by
  induction p generalizing m with
  | ret a => exact hQ a m h
  | act op k ih =>
    intro n hn hinv hgiven
    obtain ⟨hpre, hk⟩ := h n hn hinv hgiven
    exact ⟨hpre, fun c r n' hallow hdo hinv' => ih r (hk c r n' hallow hdo hinv')⟩
  | spawn e k ih =>
    intro n hn hinv
    obtain ⟨hgive, hrest⟩ := h n hn hinv
    exact ⟨hgive, fun u hne hf hinv' => (hrest u hne hf hinv').imp_right fun hk => ih hk⟩
  | jump e => exact h

theorem Triple.conseq {p : Prog S α} (h : D.Triple t A' p Q')
    (hA : ∀ m, D.inv m → A m → A' m) (hQ : ∀ a m, D.inv m → Q' a m → Q a m) :
    D.Triple t A p Q :=
  ⟨fun m hinv hm => (h.run m hinv (hA m hinv hm)).mono fun a n hn => ⟨hn.1, hQ a n hn.1 hn.2⟩⟩

theorem Triple.of_imp {p : Prog S α} (h : D.Triple t A' p Q) (hA : ∀ m, D.inv m → A m → A' m) :
    D.Triple t A p Q :=
  h.conseq hA fun _ _ _ hq => hq

/-- A precondition that holds for some value. -/
theorem Triple.of_exists {ι : Type} {B : ι → σ → Prop} {p : Prog S α}
    (h : ∀ i, D.Triple t (B i) p Q) : D.Triple t (fun m => ∃ i, B i m) p Q :=
  ⟨fun m hinv ⟨i, hm⟩ => (h i).run m hinv hm⟩

/-- A precondition with a fact that does not depend on the memory. -/
theorem Triple.of_fact {φ : Prop} {p : Prog S α} (h : φ → D.Triple t A p Q) :
    D.Triple t (fun m => φ ∧ A m) p Q :=
  ⟨fun m hinv hm => (h hm.1).run m hinv hm.2⟩

section Bounded

-- the operations are allowed whenever `A` holds, and keep `A`
variable {N : S.Op → Prop} {E J : S.Entry → Prop} {p : Prog S α} (hA : D.Stable t A)
  (hpre : ∀ op m, N op → D.inv m → D.given t op m → A m → D.pre t op m)
  (hpost : ∀ op m c r m', N op → D.inv m → D.given t op m → A m → D.allow t op m c →
    M.perform t op m c = some (r, m') → D.inv m' → A m')

include hA hpre hpost

/-- A program made of operations that keep `A`. -/
theorem Triple.of_bounded
    (hentry : ∀ e m u, E e → D.inv m → A m → u ≠ t → D.fresh u m → D.entry u e m)
    (hjump : ∀ e m, J e → D.inv m → A m → D.entry t e m) (hp : p.Bounded N E J)
    (hsame : ∀ e u m, E e → M.started (some t) e u m = m := by exact fun _ _ _ _ => rfl)
    (hgive : ∀ e m, E e → D.handover t e m := by exact fun _ _ _ => trivial) :
    D.Triple t A p fun _ => A := by
  induction p with
  | ret a => exact .ret fun _ _ hm => hm
  | act op k ih =>
    exact .act hA (fun m => hpre op m hp.1) (fun m c r m' => hpost op m c r m' hp.1)
      fun r => ih r (hp.2 r)
  | spawn e k ih =>
    exact .spawn hA (fun m u => hentry e m u hp.1) (ih hp.2) (fun u m => hsame e u m hp.1)
      fun m => hgive e m hp.1
  | jump e => exact .jump hA fun m => hjump e m hp

/-- The same where it starts and continues as the same programs. -/
theorem Triple.of_within
    (hentry : ∀ e m u, E e → D.inv m → A m → (u ≠ t → D.fresh u m) → D.entry u e m)
    (hp : p.Within N E)
    (hsame : ∀ e u m, E e → M.started (some t) e u m = m := by exact fun _ _ _ _ => rfl)
    (hgive : ∀ e m, E e → D.handover t e m := by exact fun _ _ _ => trivial) :
    D.Triple t A p fun _ => A :=
  .of_bounded hA hpre hpost (fun e m u he hinv hm _ hf => hentry e m u he hinv hm fun _ => hf)
    (fun e m he hinv hm => hentry e m t he hinv hm fun hne => (hne rfl).elim) hp hsame hgive

end Bounded

/-- A program whose last memory says nothing is safe as the program of a thread. -/
theorem Triple.safe {p : Prog S Unit} {Q : Unit → σ → Prop} (h : D.Triple t A p Q) (hinv : D.inv m)
    (hm : A m) : D.Safe t p (fun _ _ => True) m :=
  (h.run m hinv hm).mono fun _ _ _ => trivial

end Discipline

end AgentOps.Lib
