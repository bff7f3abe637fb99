import Entailment.Proofs.Reading
import Entailment.Proofs.Rendering

/-! How the reader takes the lexemes of one well-formed formula, up to the operands of its
connectives. Its tables never hold more than uses of names in this formula, so that no name is
refused. -/
namespace Entailment

theorem Symbols.intern_name {σ : Symbols} {a : Symbol} (h : σ.Knows a) :
    Symbols.intern (σ.name a) σ = (a, σ) := by
  obtain ⟨text, htext⟩ := Symbols.knows_iff.mp h
  rw [Symbols.name_eq htext]
  rcases Symbols.intern_cases text σ with ⟨i, hi, heq⟩ | ⟨hnew, -, -⟩
  · have hindex := (σ.index_iff text i).mpr hi
    rw [(σ.index_iff text a.id).mpr htext] at hindex
    rw [heq, ← Option.some.inj hindex]
  · rw [Symbols.contains_iff.mpr ⟨a.id, htext⟩] at hnew
    cases hnew

namespace Reader

/-- The state stands before the lexemes, and its tables hold uses of names in the formula. -/
structure Ready (σ : Symbols) (F : Formula) (ls : List Lexeme) (s : ReaderState) : Prop where
  symbols : s.symbols = σ
  tokens : s.tokens.map Token.lexeme = ls
  stop : s.stop = none
  relations : ∀ a n, s.relations.lookup a = some n → F.Uses a (.relation n)
  functions : ∀ a n, s.functions.lookup a = some n → F.Uses a (.function n)
  constants : ∀ a ∈ s.constants, F.Uses a .constant

/-- Before `ls` the reader gives the result and goes on before `rest`. -/
def Reads {α : Type} (σ : Symbols) (F : Formula) (x : Reader α) (r : α)
    (ls rest : List Lexeme) : Prop :=
  ∀ s, Ready σ F ls s → ∃ s', Gives x s r s' ∧ Ready σ F rest s'

/-- Each item is read after one of the separators. -/
inductive Items {α : Type} (σ : Symbols) (F : Formula) (separator : TokenKind) (item : Reader α) :
    List α → List Lexeme → List Lexeme → Prop
  | nil {ls} : Items σ F separator item [] ls ls
  | cons {r rs l ls ms rest} (hl : l.kind = separator) (hr : Reads σ F item r ls ms)
      (hrs : Items σ F separator item rs ms rest) :
    Items σ F separator item (r :: rs) (l :: ls) rest

variable {α β : Type} {σ : Symbols} {F : Formula} {ls ms rest : List Lexeme} {l : Lexeme}

theorem reads_pure (r : α) : Reads σ F (pure r) r ls ls :=
  fun s hs => ⟨s, gives_pure.mpr ⟨rfl, rfl⟩, hs⟩

theorem Reads.bind {x : Reader α} {f : α → Reader β} {r : α} {b : β} (hx : Reads σ F x r ls ms)
    (hf : Reads σ F (f r) b ms rest) : Reads σ F (x >>= f) b ls rest := by
  intro s hs
  obtain ⟨s', hr, hs'⟩ := hx s hs
  obtain ⟨s'', hb, hs''⟩ := hf s' hs'
  exact ⟨s'', gives_bind.mpr ⟨r, s', hr, hb⟩, hs''⟩

/-- Taking the first token keeps the state ready. -/
theorem Ready.next {s : ReaderState} (hs : Ready σ F (l :: ls) s) :
    ∃ t rest, s.tokens = t :: rest ∧ t.lexeme = l ∧ Ready σ F ls { s with tokens := rest } := by
  obtain ⟨t, rest, htokens, ht, hrest⟩ := List.map_eq_cons_iff.mp hs.tokens
  exact ⟨t, rest, htokens, ht,
    ⟨hs.symbols, hrest, hs.stop, hs.relations, hs.functions, hs.constants⟩⟩

theorem reads_accept {kind : TokenKind} (hl : l.kind = kind) :
    Reads σ F (accept kind) true (l :: ls) ls := by
  intro s hs
  obtain ⟨t, rest, htokens, rfl, hs'⟩ := hs.next
  exact ⟨_, gives_accept.mpr (.inl ⟨rfl, t, rest, htokens, hl, rfl⟩), hs'⟩

theorem reads_accept_false {kind : TokenKind} (h : ∀ l ∈ ls.head?, l.kind ≠ kind) :
    Reads σ F (accept kind) false ls ls := by
  intro s hs
  refine ⟨s, gives_accept.mpr (.inr ⟨rfl, fun t rest htokens => ?_, rfl⟩), hs⟩
  refine h t.lexeme ?_
  rw [← hs.tokens, htokens]
  rfl

theorem reads_expect {kind : TokenKind} (hl : l.kind = kind) :
    Reads σ F (expect kind) () (l :: ls) ls := by
  intro s hs
  obtain ⟨s', hs', hready⟩ := reads_accept hl s hs
  exact ⟨s', gives_expect.mpr hs', hready⟩

theorem reads_identifier {a : Symbol} (h : σ.Knows a) (wanted : Wanted) :
    Reads σ F (identifier wanted) a (.name (σ.name a) :: ls) ls := by
  intro s hs
  obtain ⟨t, rest, htokens, ht, hs'⟩ := hs.next
  have hkind : t.kind = .ident := congrArg Lexeme.kind ht
  have hspelling : t.spelling = σ.name a := String.toList_inj.mp (congrArg Lexeme.spelling ht)
  have hintern : Symbols.intern t.spelling s.symbols = (a, σ) := by
    rw [hspelling, hs.symbols, Symbols.intern_name h]
  refine ⟨{ s with tokens := rest, symbols := σ },
    gives_identifier.mpr ⟨t, rest, htokens, hkind, by rw [hintern], by rw [hintern]⟩, ?_⟩
  exact ⟨rfl, hs'.tokens, hs.stop, hs.relations, hs.functions, hs.constants⟩

/-! ## Repetition -/

section Items

variable {separator : TokenKind} {item : Reader α} {rs rs' : List α}

theorem Items.append (h : Items σ F separator item rs ls ms)
    (h' : Items σ F separator item rs' ms rest) : Items σ F separator item (rs ++ rs') ls rest := by
  induction h with
  | nil => exact h'
  | cons hl hr _ ih => exact .cons hl hr (ih h')

theorem Items.reads (h : Items σ F separator item rs ls rest)
    (hend : ∀ l ∈ rest.head?, l.kind ≠ separator) {fuel : Nat} (hfuel : rs.length ≤ fuel) :
    Reads σ F (after separator item fuel) rs ls rest := by
  induction h generalizing fuel with
  | nil =>
    cases fuel with
    | zero => exact reads_pure []
    | succ fuel => exact (reads_accept_false hend).bind (reads_pure [])
  | cons hl hr _ ih =>
    obtain ⟨fuel, rfl⟩ : ∃ n, fuel = n + 1 := ⟨fuel - 1, by rw [List.length_cons] at hfuel; omega⟩
    exact (reads_accept hl).bind (hr.bind ((ih hend (Nat.le_of_succ_le_succ hfuel)).bind
      (reads_pure _)))

end Items

end Reader

/-! ## Terms -/

namespace Term

/-- The name that a term starts with. -/
def head : Term → Symbol
  | .var x => x
  | .const c => c
  | .app f _ => f

def args : Term → List Term
  | .app _ args => args
  | _ => []

theorem lexemes_eq (σ : Symbols) (t : Term) :
    t.lexemes σ = .name (σ.name t.head) :: bracketed σ t.args := by
  cases t <;> rfl

theorem exists_head (scope : List Symbol) (t : Term) :
    ∃ role, ⟨t.head, role, scope⟩ ∈ t.occurrences scope := by
  cases t with
  | var x => exact ⟨.variable, List.mem_singleton.mpr rfl⟩
  | const c => exact ⟨.constant, List.mem_singleton.mpr rfl⟩
  | app f args => exact ⟨.function args.length, mem_occurrences_app.mpr (.inl rfl)⟩

theorem occurrences_args {scope : List Symbol} {t u : Term} (h : u ∈ t.args) :
    u.occurrences scope ⊆ t.occurrences scope := by
  cases t with
  | var x | const x => cases h
  | app f args => exact fun o ho => mem_occurrences_app.mpr (.inr ⟨u, h, ho⟩)

theorem length_separated (σ : Symbols) (ts : List Term) : ts.length ≤ (separated σ ts).length := by
  induction ts with
  | nil => exact Nat.zero_le _
  | cons t ts ih =>
    simp only [separated, List.length_cons, List.length_append]
    omega

theorem length_le_separated {σ : Symbols} {t : Term} {ts : List Term} (h : t ∈ ts) :
    (t.lexemes σ).length ≤ (separated σ ts).length := by
  induction ts with
  | nil => cases h
  | cons u us ih =>
    simp only [separated, List.length_cons, List.length_append]
    rcases List.mem_cons.mp h with rfl | h
    · omega
    · have := ih h
      omega

/-- The brackets are longer than each term in them, and than the number of the terms. -/
theorem length_bracketed (σ : Symbols) (ts : List Term) : ts.length ≤ (bracketed σ ts).length ∧
    ∀ t ∈ ts, (t.lexemes σ).length ≤ (bracketed σ ts).length := by
  cases ts with
  | nil => simp
  | cons t ts =>
    have hcount := length_separated σ ts
    simp only [bracketed, List.length_cons, List.length_append, List.length_nil]
    refine ⟨by omega, fun u hu => ?_⟩
    rcases List.mem_cons.mp hu with rfl | hu
    · omega
    · have := length_le_separated hu (σ := σ)
      omega

end Term

namespace Reader

variable {α β : Type} {σ : Symbols} {F : Formula} {ls ms rest : List Lexeme} {l : Lexeme}
  {scope : List Symbol} {t : Term} {ts : List Term}

/-- What stands for arguments that are written in brackets. -/
def written : List Term → Option (List Term)
  | [] => none
  | t :: ts => some (t :: ts)

theorem getD_written (ts : List Term) : (written ts).getD [] = ts := by
  cases ts <;> rfl

theorem written_of_ne (h : ts ≠ []) : written ts = some ts := by
  cases ts with
  | nil => exact absurd rfl h
  | cons t ts => rfl

/-- The use of a name that a scope allows. -/
theorem uses_of_mem {a : Symbol} {role : Role} (h : ⟨a, role, scope⟩ ∈ F.occurrences []) :
    F.Uses a role :=
  ⟨_, h, rfl, rfl⟩

theorem knows_of_mem (hF : F.WellFormed σ) {o : Occurrence} (h : o ∈ F.occurrences []) :
    σ.Knows o.symbol :=
  hF.known _ (Formula.mem_symbols_iff.mpr ⟨o, h, rfl⟩)

/-- The new entry is a use of its name like the others. -/
theorem uses_of_lookup_cons {table : List (Symbol × Nat)} {role : Nat → Role} {a : Symbol} {n : Nat}
    (h : ∀ b m, table.lookup b = some m → F.Uses b (role m)) (ha : F.Uses a (role n)) :
    ∀ b m, ((a, n) :: table).lookup b = some m → F.Uses b (role m) := by
  intro b m hm
  rw [Symbol.lookup_cons] at hm
  split at hm
  · rename_i hb
    cases hm
    exact hb ▸ ha
  · exact h b m hm

theorem reads_makeTerm (hF : F.WellFormed σ) (ht : t.occurrences scope ⊆ F.occurrences []) :
    Reads σ F (makeTerm scope t.head (written t.args)) t ls ls := by
  intro s hs
  cases t with
  | var x =>
    have hx := ht (List.mem_singleton.mpr rfl)
    have hscope : x ∈ scope := (hF.bound _ hx (by simp)).mp rfl
    exact ⟨s, gives_makeTerm_none.mpr (.inl ⟨hscope, rfl, rfl⟩), hs⟩
  | const c =>
    have hc := ht (List.mem_singleton.mpr rfl)
    have hscope : c ∉ scope := fun h => absurd ((hF.bound _ hc (by simp)).mpr h) (by simp)
    have hlookup : s.functions.lookup c = none := by
      by_contra hsome
      obtain ⟨n, hn⟩ := Option.ne_none_iff_exists'.mp hsome
      exact hF.constants c n (hs.functions c n hn) (uses_of_mem hc)
    refine ⟨_, gives_makeTerm_none.mpr (.inr ⟨hscope, hlookup, rfl, rfl⟩), ?_⟩
    exact ⟨hs.symbols, hs.tokens, hs.stop, hs.relations, hs.functions,
      List.forall_mem_cons.mpr ⟨uses_of_mem hc, hs.constants⟩⟩
  | app f args =>
    have hf := ht (Term.mem_occurrences_app.mpr (.inl rfl))
    have hscope : f ∉ scope := fun h => absurd ((hF.bound _ hf (by simp)).mpr h) (by simp)
    have hconst : f ∉ s.constants := fun h => hF.constants f _ (uses_of_mem hf) (hs.constants f h)
    have hne : args ≠ [] := by
      rintro rfl
      exact hF.applied f (uses_of_mem hf)
    have hgives {s' : ReaderState} := @gives_makeTerm_some s s' scope f args (.app f args)
    rw [Term.args, written_of_ne hne]
    rcases hlookup : s.functions.lookup f with _ | n
    · refine ⟨_, hgives.mpr ⟨hscope, hconst, rfl, .inr ⟨hlookup, rfl⟩⟩, ?_⟩
      exact ⟨hs.symbols, hs.tokens, hs.stop, hs.relations,
        uses_of_lookup_cons hs.functions (uses_of_mem hf), hs.constants⟩
    · have hn := hF.functions f n args.length (hs.functions f n hlookup) (uses_of_mem hf)
      exact ⟨s, hgives.mpr ⟨hscope, hconst, rfl, .inl ⟨hn ▸ hlookup, rfl⟩⟩, hs⟩

theorem items_separated {item : Reader Term}
    (h : ∀ t ∈ ts, ∀ rest : List Lexeme, (∀ l ∈ rest.head?, l.kind ≠ .lparen) →
      Reads σ F item t (t.lexemes σ ++ rest) rest)
    (hrest : ∀ l ∈ rest.head?, l.kind ≠ .lparen) :
    Items σ F .comma item ts (Term.separated σ ts ++ rest) rest := by
  induction ts with
  | nil => exact .nil
  | cons t ts ih =>
    rw [List.forall_mem_cons] at h
    rw [Term.separated, List.cons_append, List.append_assoc]
    refine .cons rfl (h.1 _ ?_) (ih h.2)
    cases ts with
    | nil => exact hrest
    | cons u us => exact fun l hl => by cases hl; decide

theorem reads_arguments {term : Reader Term}
    (h : ∀ t ∈ ts, ∀ rest : List Lexeme, (∀ l ∈ rest.head?, l.kind ≠ .lparen) →
      Reads σ F term t (t.lexemes σ ++ rest) rest)
    (hrest : ∀ l ∈ rest.head?, l.kind ≠ .lparen) {fuel : Nat} (hfuel : ts.length ≤ fuel) :
    Reads σ F (arguments term fuel) (written ts) (Term.bracketed σ ts ++ rest) rest := by
  cases ts with
  | nil => exact (reads_accept_false hrest).bind (reads_pure none)
  | cons t ts =>
    rw [List.forall_mem_cons] at h
    have hclose : ∀ l ∈ (Lexeme.rparen :: rest).head?, l.kind ≠ .lparen ∧ l.kind ≠ .comma := by
      rintro l ⟨⟩
      decide
    have hitems := items_separated h.2 fun l hl => (hclose l hl).1
    have hafter := hitems.reads (fun l hl => (hclose l hl).2) (Nat.le_of_succ_le hfuel)
    have hfirst : ∀ l ∈ (Term.separated σ ts ++ Lexeme.rparen :: rest).head?, l.kind ≠ .lparen := by
      cases ts with
      | nil => exact fun l hl => (hclose l hl).1
      | cons u us => exact fun l hl => by cases hl; decide
    rw [Term.bracketed, List.cons_append, List.append_assoc, List.append_assoc,
      List.singleton_append]
    exact (reads_accept rfl).bind ((h.1 _ hfirst).bind (hafter.bind
      ((reads_expect rfl).bind (reads_pure _))))

/-- A name and its arguments: a term, or the start of an atom. -/
theorem reads_start (hF : F.WellFormed σ) {a : Symbol} {role : Role}
    (ha : ⟨a, role, scope⟩ ∈ F.occurrences []) (wanted : Wanted) {term : Reader Term}
    (h : ∀ t ∈ ts, ∀ rest : List Lexeme, (∀ l ∈ rest.head?, l.kind ≠ .lparen) →
      Reads σ F term t (t.lexemes σ ++ rest) rest)
    (hrest : ∀ l ∈ rest.head?, l.kind ≠ .lparen) {fuel : Nat}
    (hfuel : (Term.bracketed σ ts).length ≤ fuel) {f : Symbol → Option (List Term) → Reader α}
    {r : α} {last : List Lexeme} (hf : Reads σ F (f a (written ts)) r rest last) :
    Reads σ F (do
      let a ← identifier wanted
      f a (← arguments term fuel)) r (.name (σ.name a) :: (Term.bracketed σ ts ++ rest)) last := by
  have hcount := (Term.length_bracketed σ ts).1.trans hfuel
  exact (reads_identifier (knows_of_mem hF ha) wanted).bind
    ((reads_arguments h hrest hcount).bind hf)

theorem reads_term (hF : F.WellFormed σ) {n : Nat} (hn : (t.lexemes σ).length ≤ n)
    (ht : t.occurrences scope ⊆ F.occurrences []) (hrest : ∀ l ∈ rest.head?, l.kind ≠ .lparen) :
    Reads σ F (term scope n) t (t.lexemes σ ++ rest) rest := by
  have hstep (t : Term) (n : Nat) (rest : List Lexeme) (hn : (t.lexemes σ).length ≤ n)
      (ht : t.occurrences scope ⊆ F.occurrences []) (hrest : ∀ l ∈ rest.head?, l.kind ≠ .lparen)
      (hargs : ∀ u ∈ t.args, ∀ n, (u.lexemes σ).length ≤ n → ∀ rest : List Lexeme,
        (∀ l ∈ rest.head?, l.kind ≠ .lparen) →
        Reads σ F (term scope n) u (u.lexemes σ ++ rest) rest) :
      Reads σ F (term scope n) t (t.lexemes σ ++ rest) rest := by
    rw [Term.lexemes_eq, List.length_cons] at hn
    obtain ⟨n, rfl⟩ : ∃ m, n = m + 1 := ⟨n - 1, by omega⟩
    obtain ⟨role, hrole⟩ := Term.exists_head scope t
    rw [Term.lexemes_eq, List.cons_append]
    refine reads_start hF (ht hrole) _ (fun u hu => hargs u hu n ?_) hrest
      (Nat.le_of_succ_le_succ hn) (reads_makeTerm hF ht)
    exact ((Term.length_bracketed σ t.args).2 u hu).trans (Nat.le_of_succ_le_succ hn)
  induction t using Term.rec_args generalizing n rest with
  | var x => exact hstep _ n rest hn ht hrest fun u hu => absurd hu List.not_mem_nil
  | const c => exact hstep _ n rest hn ht hrest fun u hu => absurd hu List.not_mem_nil
  | app f args ih =>
    refine hstep _ n rest hn ht hrest fun u hu n hn rest hrest => ?_
    exact ih u hu hn (List.Subset.trans (Term.occurrences_args hu) ht) hrest

/-! ## Atoms -/

theorem reads_makeRelation (hF : F.WellFormed σ) {r : Symbol}
    (hr : ⟨r, .relation ts.length, scope⟩ ∈ F.occurrences []) :
    Reads σ F (makeRelation scope r (written ts)) (.rel r ts) ls ls := by
  intro s hs
  have hscope : r ∉ scope := fun h => absurd ((hF.bound _ hr (by simp)).mpr h) (by simp)
  have hgives {s' : ReaderState} := @gives_makeRelation s s' scope r (written ts) (.rel r ts)
  rw [getD_written] at hgives
  rcases hlookup : s.relations.lookup r with _ | n
  · refine ⟨_, hgives.mpr ⟨hscope, rfl, .inr ⟨hlookup, rfl⟩⟩, ?_⟩
    exact ⟨hs.symbols, hs.tokens, hs.stop, uses_of_lookup_cons hs.relations (uses_of_mem hr),
      hs.functions, hs.constants⟩
  · have hn := hF.relations r n ts.length (hs.relations r n hlookup) (uses_of_mem hr)
    exact ⟨s, hgives.mpr ⟨hscope, rfl, .inl ⟨hn ▸ hlookup, rfl⟩⟩, hs⟩

/-- No sign follows that would go on with an atom. -/
def Complete (rest : List Lexeme) : Prop :=
  ∀ l ∈ rest.head?, l.kind ≠ .lparen ∧ l.kind ≠ .eq ∧ l.kind ≠ .ne

variable {n : Nat}

theorem reads_relation (hF : F.WellFormed σ) {r : Symbol} (hn : (Term.bracketed σ ts).length ≤ n)
    (hr : (Formula.rel r ts).occurrences scope ⊆ F.occurrences []) (hrest : Complete rest) :
    Reads σ F (atomic scope n) (.rel r ts) (.name (σ.name r) :: (Term.bracketed σ ts ++ rest))
      rest := by
  obtain ⟨hhead, hargs⟩ := List.cons_subset.mp hr
  refine reads_start hF hhead _ (fun t ht rest => reads_term hF ?_ ?_) (fun l hl => (hrest l hl).1)
    hn ?_
  · exact ((Term.length_bracketed σ ts).2 t ht).trans hn
  · exact fun o ho => hargs (Term.mem_occurrencesAll.mpr ⟨t, ht, ho⟩)
  · exact (reads_accept_false fun l hl => (hrest l hl).2.1).bind
      ((reads_accept_false fun l hl => (hrest l hl).2.2).bind (reads_makeRelation hF hhead))

/-- The left side is read as the start of an atom before the sign shows that it is a term. -/
theorem reads_side (hF : F.WellFormed σ) {t : Term} (hn : (t.lexemes σ).length ≤ n)
    (ht : t.occurrences scope ⊆ F.occurrences []) {l : Lexeme} (hl : l.kind ≠ .lparen)
    {f : Symbol → Option (List Term) → Reader α} {r : α}
    (hf : Reads σ F (f t.head (written t.args)) r (l :: ls) rest) :
    Reads σ F (do
      let a ← identifier .relation
      f a (← arguments (term scope n) n)) r (t.lexemes σ ++ l :: ls) rest := by
  obtain ⟨role, hrole⟩ := Term.exists_head scope t
  rw [Term.lexemes_eq, List.length_cons] at hn
  rw [Term.lexemes_eq, List.cons_append]
  refine reads_start hF (ht hrole) _ (fun u hu rest => reads_term hF ?_ ?_) ?_
    (Nat.le_of_succ_le hn) hf
  · exact ((Term.length_bracketed σ t.args).2 u hu).trans (Nat.le_of_succ_le hn)
  · exact List.Subset.trans (Term.occurrences_args hu) ht
  · rintro l ⟨⟩
    exact hl

theorem reads_equation (hF : F.WellFormed σ) {l r : Term} {s : Lexeme} (hs : s.kind = .eq)
    (hn : (l.lexemes σ ++ s :: r.lexemes σ).length ≤ n)
    (hf : (Formula.eq l r).occurrences scope ⊆ F.occurrences []) (hrest : Complete rest) :
    Reads σ F (atomic scope n) (.eq l r) (l.lexemes σ ++ s :: (r.lexemes σ ++ rest)) rest := by
  obtain ⟨hl, hr⟩ := List.append_subset.mp hf
  rw [List.length_append, List.length_cons] at hn
  refine reads_side hF (by omega) hl (by simp [hs]) ?_
  exact (reads_accept hs).bind ((reads_makeTerm hF hl).bind
    ((reads_term hF (by omega) hr fun l hl => (hrest l hl).1).bind (reads_pure _)))

theorem reads_inequation (hF : F.WellFormed σ) {l r : Term} {s : Lexeme} (hs : s.kind = .ne)
    (hn : (l.lexemes σ ++ s :: r.lexemes σ).length ≤ n)
    (hf : (Formula.eq l r).occurrences scope ⊆ F.occurrences []) (hrest : Complete rest) :
    Reads σ F (atomic scope n) (.not (.eq l r)) (l.lexemes σ ++ s :: (r.lexemes σ ++ rest))
      rest := by
  obtain ⟨hl, hr⟩ := List.append_subset.mp hf
  rw [List.length_append, List.length_cons] at hn
  refine reads_side hF (by omega) hl (by simp [hs]) ?_
  have hother : ∀ l' ∈ (s :: (r.lexemes σ ++ rest)).head?, l'.kind ≠ .eq := by
    rintro l' ⟨⟩
    simp [hs]
  exact (reads_accept_false hother).bind ((reads_accept hs).bind ((reads_makeTerm hF hl).bind
    ((reads_term hF (by omega) hr fun l hl => (hrest l hl).1).bind (reads_pure _))))

/-! ## Operands -/

/-- A formula without negation signs in front: quantified, bracketed or atomic. -/
def unsigned (formula : List Symbol → Reader Formula) (scope : List Symbol) (fuel : Nat) :
    Reader Formula := do
  match ← quantifier with
  | some q =>
    let bs ← binders q fuel
    let body ← formula ((bs.map (·.2)).reverse ++ scope)
    return bs.foldr (fun b f => b.1 b.2 f) body
  | none =>
    if ← accept .lparen then
      let f ← formula scope
      expect .rparen
      return f
    else atomic scope fuel

theorem operand_eq (formula : List Symbol → Reader Formula) (scope : List Symbol) (fuel : Nat) :
    operand formula scope fuel = (do
      let n ← negations fuel
      let f ← unsigned formula scope fuel
      return n.repeat .not f) := by
  unfold operand unsigned
  congr 1
  funext n
  rw [bind_assoc]
  congr 1
  funext q
  cases q with
  | some q => simp only [bind_assoc, pure_bind]
  | none =>
    simp only [bind_assoc]
    congr 1
    funext b
    cases b with
    | true => simp
    | false => rfl

theorem reads_negations {ns : List Lexeme} (hns : ∀ l ∈ ns, l.kind = .not)
    (hls : ∀ l ∈ ls.head?, l.kind ≠ .not) {fuel : Nat} (hfuel : ns.length ≤ fuel) :
    Reads σ F (negations fuel) ns.length (ns ++ ls) ls := by
  induction ns generalizing fuel with
  | nil =>
    cases fuel with
    | zero => exact reads_pure 0
    | succ fuel => exact (reads_accept_false hls).bind (reads_pure 0)
  | cons l ns ih =>
    rw [List.forall_mem_cons] at hns
    rw [List.length_cons] at hfuel
    obtain ⟨fuel, rfl⟩ : ∃ m, fuel = m + 1 := ⟨fuel - 1, by omega⟩
    exact (reads_accept hns.1).bind ((ih hns.2 (Nat.le_of_succ_le_succ hfuel)).bind (reads_pure _))

theorem reads_no_quantifier (h : ∀ l ∈ ls.head?, l.kind ≠ .all ∧ l.kind ≠ .ex) :
    Reads σ F quantifier none ls ls :=
  (reads_accept_false fun l hl => (h l hl).1).bind
    ((reads_accept_false fun l hl => (h l hl).2).bind (reads_pure none))

theorem reads_quantifier {q : Quantifier} {s : Lexeme} (hs : s.kind = q.sign) :
    Reads σ F quantifier (some q.form) (s :: ls) ls := by
  cases q with
  | all => exact (reads_accept hs).bind (reads_pure _)
  | ex =>
    have hother : ∀ l ∈ (s :: ls).head?, l.kind ≠ .all := by
      rintro l ⟨⟩
      simp [hs, Quantifier.sign]
    exact (reads_accept_false hother).bind ((reads_accept hs).bind (reads_pure _))

section Unsigned

variable {formula : List Symbol → Reader Formula} {f : Formula}

theorem reads_unsigned_atomic {a : String} (h : Reads σ F (atomic scope n) f (.name a :: ls) rest) :
    Reads σ F (unsigned formula scope n) f (.name a :: ls) rest := by
  have hname : ∀ l ∈ (Lexeme.name a :: ls).head?, l.kind = .ident := by
    rintro l ⟨⟩
    rfl
  refine (reads_no_quantifier fun l hl => by simp [hname l hl]).bind ?_
  exact (reads_accept_false fun l hl => by simp [hname l hl]).bind h

theorem reads_unsigned_brackets {s s' : Lexeme} (hs : s.kind = .lparen) (hs' : s'.kind = .rparen)
    (h : Reads σ F (formula scope) f ls (s' :: rest)) :
    Reads σ F (unsigned formula scope n) f (s :: ls) rest := by
  have hother : ∀ l ∈ (s :: ls).head?, l.kind ≠ .all ∧ l.kind ≠ .ex := by
    rintro l ⟨⟩
    simp [hs]
  exact (reads_no_quantifier hother).bind ((reads_accept hs).bind (h.bind
    ((reads_expect hs').bind (reads_pure f))))

theorem reads_unsigned_quantified {q : Quantifier} {s : Lexeme} (hs : s.kind = q.sign)
    {bs : List ((Symbol → Formula → Formula) × Symbol)} {body : Formula}
    (hbs : Reads σ F (binders q.form n) bs ls ms)
    (hbody : Reads σ F (formula ((bs.map (·.2)).reverse ++ scope)) body ms rest) :
    Reads σ F (unsigned formula scope n) (bs.foldr (fun b f => b.1 b.2 f) body) (s :: ls) rest :=
  (reads_quantifier hs).bind (hbs.bind (hbody.bind (reads_pure _)))

end Unsigned

end Reader

end Entailment
