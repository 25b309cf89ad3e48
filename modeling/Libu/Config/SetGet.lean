/-
# Setting and getting keys (`toolbox/config.c`)

`u_config_set_key` and `u_config_get_subkey_value` follow a dotted key by separate recursions; both
take the first child of each name.

The two recursions are not written alike: the one that sets goes on from the node that it has just
made, the one that gets asks each node for its child.  They are compared with one description of the
tree by dotted keys, in which setting a key changes the value at one path and at most adds nodes
without values on the way.

* §1: keys and their pieces; values without references.
* §2 is what a dotted key leads to from a node, without indices (`valueAt`), and what setting it
  does to the node's children (`putAt`).
* §3: the code does this (`getSubkeyValue_eq`, `doSetKey_eq`).
* §4: a key that has been set is got, and no other one has changed (`set_get`).
-/
import Libu.Config.Basic

namespace Libu.Config

open Verif

/-! ## 1. Keys and values -/

theorem splitDots_ne_nil (s : List Char) : splitDots s ≠ [] := by
  cases s with
  | nil => simp [splitDots]
  | cons c s =>
    unfold splitDots
    split
    · simp
    · split <;> simp

/-- The pieces of a key that goes on behind a character other than a dot. -/
theorem splitDots_cons {c : Char} (hc : c ≠ '.') (s : List Char) :
    ∃ k ks, splitDots s = k :: ks ∧ splitDots (c :: s) = (c :: k) :: ks := by
  obtain ⟨k, ks, hs⟩ := List.exists_cons_of_ne_nil (splitDots_ne_nil s)
  exact ⟨k, ks, hs, by simp [splitDots, hc, hs]⟩

theorem splitDots_dot (s : List Char) : splitDots ('.' :: s) = [] :: splitDots s := rfl

theorem splitDots_undotted {s : List Char} (h : '.' ∉ s) : splitDots s = [s] := by
  induction s with
  | nil => rfl
  | cons c s ih =>
    rw [List.mem_cons, not_or] at h
    rw [splitDots, if_neg (Ne.symm h.1), ih h.2]

/-- Different keys have different pieces. -/
theorem splitDots_inj {s t : List Char} (h : splitDots s = splitDots t) : s = t := by
  induction s generalizing t with
  | nil =>
    cases t with
    | nil => rfl
    | cons d t =>
      by_cases hd : d = '.'
      · subst hd
        rw [splitDots_dot] at h
        exact absurd (List.cons.inj h).2.symm (splitDots_ne_nil t)
      · obtain ⟨k, ks, -, heq⟩ := splitDots_cons hd t
        rw [heq] at h
        cases (List.cons.inj h).1
  | cons c s ih =>
    by_cases hc : c = '.'
    · subst hc
      rw [splitDots_dot] at h
      cases t with
      | nil => exact absurd (List.cons.inj h).2 (splitDots_ne_nil s)
      | cons d t =>
        by_cases hd : d = '.'
        · subst hd
          rw [splitDots_dot] at h
          rw [ih (List.cons.inj h).2]
        · obtain ⟨k, ks, -, heq⟩ := splitDots_cons hd t
          rw [heq] at h
          cases (List.cons.inj h).1
    · obtain ⟨k, ks, hs, heq⟩ := splitDots_cons hc s
      rw [heq] at h
      cases t with
      | nil => cases (List.cons.inj h).1
      | cons d t =>
        by_cases hd : d = '.'
        · subst hd
          rw [splitDots_dot] at h
          cases (List.cons.inj h).1
        · obtain ⟨k', ks', ht, heq'⟩ := splitDots_cons hd t
          rw [heq'] at h
          obtain ⟨hhead, rfl⟩ := List.cons.inj h
          obtain ⟨rfl, rfl⟩ := List.cons.inj hhead
          rw [ih (hs.trans ht.symm)]

/-- A character that does not start a reference. -/
theorem expand_cons (lookup : List Char → Except Ret (List Char)) {c : Char} {val : List Char}
    (h : ¬ ['$', '{'] <+: c :: val) :
    expand lookup none (c :: val) = (expand lookup none val).map (c :: ·) := by
  rw [expand]
  · cases expand lookup none val <;> rfl
  · rintro rest rfl rfl
    exact h (List.prefix_append ['$', '{'] rest)

/-- A value without a `${` is taken as it is. -/
theorem expand_plain {lookup : List Char → Except Ret (List Char)} {val : List Char}
    (h : ¬ ['$', '{'] <:+: val) : expand lookup none val = .ok val := by
  induction val with
  | nil => rfl
  | cons c val ih =>
    have hval := ih fun hin => h (hin.trans (List.suffix_cons c val).isInfix)
    rw [expand_cons lookup fun hpre => h hpre.isInfix, hval]
    rfl

/-! ## 2. Dotted keys -/

/-- The first child with the key, and its children. -/
def first (key : List Char) : Forest Item → Option (Item × Forest Item)
  | .nil => none
  | .node item children items => if key = item.key then some (item, children) else first key items

/-- The value that the pieces of a key lead to. -/
def valueAt : List (List Char) → Forest Item → Option (List Char)
  | [], _ => none
  | [key], f => (first key f).bind fun m => m.1.value
  | key :: keys, f => (first key f).bind fun m => valueAt keys m.2

/-- `h` on the first child with the key, or on a new child behind the others if there is none. -/
def upsert (key : List Char) (h : Item → Forest Item → Item × Forest Item) :
    Forest Item → Forest Item
  | .nil => .node (h ⟨key, none⟩ .nil).1 (h ⟨key, none⟩ .nil).2 .nil
  | .node item children items =>
    if key = item.key then .node (h item children).1 (h item children).2 items
    else .node item children (upsert key h items)

/-- The children after the pieces of a key have been set. -/
def putAt (val : Option (List Char)) : List (List Char) → Forest Item → Forest Item
  | [], f => f
  | [key], f => upsert key (fun item children => ({ item with value := val }, children)) f
  | key :: keys, f => upsert key (fun item children => (item, putAt val keys children)) f

section Keys

variable {key key' : List Char} {keys keys' : List (List Char)}
    {h : Item → Forest Item → Item × Forest Item}
  {val : Option (List Char)} {f : Forest Item}

theorem valueAt_cons (hkeys : keys ≠ []) :
    valueAt (key :: keys) f = (first key f).bind fun m => valueAt keys m.2 := by
  cases keys with
  | nil => exact absurd rfl hkeys
  | cons k ks => rfl

theorem putAt_cons (hkeys : keys ≠ []) :
    putAt val (key :: keys) f = upsert key (fun item children =>
      (item, putAt val keys children)) f := by
  cases keys with
  | nil => exact absurd rfl hkeys
  | cons k ks => rfl

theorem valueAt_nil (keys : List (List Char)) : valueAt keys .nil = none := by
  cases keys with
  | nil => rfl
  | cons k ks => cases ks <;> rfl

/-- What was there is changed, or what is new is made, by `h`. -/
theorem first_upsert_self (hkey : ∀ item children, (h item children).1.key = item.key) :
    first key (upsert key h f) =
      some (h ((first key f).getD (⟨key, none⟩, .nil)).1
        ((first key f).getD (⟨key, none⟩, .nil)).2) := by
  induction f with
  | nil => simp [upsert, first, hkey]
  | node item children items _ ih =>
    by_cases heq : key = item.key
    · simp [upsert, first, hkey, heq]
    · simp [upsert, first, heq, ih]

/-- Other keys keep their first child. -/
theorem first_upsert_ne (hkey : ∀ item children, (h item children).1.key = item.key)
    (hne : key' ≠ key) : first key' (upsert key h f) = first key' f := by
  induction f with
  | nil => simp [upsert, first, hkey, hne]
  | node item children items _ ih =>
    by_cases heq : key = item.key
    · have hold : ¬ key' = item.key := fun h' => hne (h'.trans heq.symm)
      simp [upsert, first, hkey, heq, hold]
    · simp only [upsert, if_neg heq, first, ih]

/-- **The key that is set has the value.** -/
theorem valueAt_putAt_self (hkeys : keys ≠ []) : valueAt keys (putAt val keys f) = val := by
  induction keys generalizing f with
  | nil => exact absurd rfl hkeys
  | cons key keys ih =>
    by_cases hlast : keys = []
    · subst hlast
      rw [valueAt, putAt, first_upsert_self fun _ _ => rfl]
      rfl
    · rw [valueAt_cons hlast, putAt_cons hlast, first_upsert_self fun _ _ => rfl]
      exact ih hlast

/-- **All others have the values they had.**  The nodes that are made on the way have none. -/
theorem valueAt_putAt_ne (hkeys : keys ≠ []) (hne : keys' ≠ keys) :
    valueAt keys' (putAt val keys f) = valueAt keys' f := by
  induction keys generalizing f keys' with
  | nil => exact absurd rfl hkeys
  | cons key keys ih =>
    cases keys' with
    | nil => rfl
    | cons key' keys' =>
      by_cases hkey : key' = key
      · subst hkey
        by_cases hlast : keys = []
        · subst hlast
          have hmore : keys' ≠ [] := fun h => hne (by rw [h])
          rw [valueAt_cons hmore, valueAt_cons hmore, putAt, first_upsert_self fun _ _ =>
            rfl, Option.bind_some]
          cases first key' f with
          | none => exact valueAt_nil keys'
          | some m => rfl
        · rw [putAt_cons hlast]
          by_cases hend : keys' = []
          · subst hend
            rw [valueAt, valueAt, first_upsert_self fun _ _ => rfl, Option.bind_some]
            cases first key' f <;> rfl
          · have htail : keys' ≠ keys := fun h => hne (by rw [h])
            rw [valueAt_cons hend, valueAt_cons hend, first_upsert_self fun _ _ => rfl,
              Option.bind_some, ih hlast htail]
            cases first key' f with
            | none => exact valueAt_nil keys'
            | some m => rfl
      · have hfirst : first key' (putAt val (key :: keys) f) = first key' f := by
          by_cases hlast : keys = []
          · subst hlast
            exact first_upsert_ne (fun _ _ => rfl) hkey
          · rw [putAt_cons hlast]
            exact first_upsert_ne (fun _ _ => rfl) hkey
        by_cases hend : keys' = []
        · subst hend
          rw [valueAt, valueAt, hfirst]
        · rw [valueAt_cons hend, valueAt_cons hend, hfirst]

end Keys

/-! ## 3. The code -/

section Code

variable {c : Config} {p : Path} {key : List Char} {f cs : Forest Item}

/-- A key that no child has is set on a new one. -/
theorem upsert_of_none (hfirst : first key f = none) (h : Item → Forest Item → Item × Forest Item) :
    upsert key h f = f.append (.node (h ⟨key, none⟩ .nil).1 (h ⟨key, none⟩ .nil).2 .nil) := by
  induction f with
  | nil => rfl
  | node item children items _ ih =>
    have hkey : ¬ key = item.key := fun heq => by simp [first, heq] at hfirst
    rw [first, if_neg hkey] at hfirst
    rw [upsert, if_neg hkey, Forest.node_append, ih hfirst]

/-- `u_config_get_child` finds the first child with the key; it is the one that is changed. -/
theorem getChildN_zero (key : List Char) (f : Forest Item) :
    (getChildN (some key) 0 f = none ∧ first key f = none) ∨
      ∃ i m, getChildN (some key) 0 f = some i ∧ first key f = some m ∧ f.label [i] = some m.1 ∧
        f.inside [i] = some m.2 ∧
        (∀ g, f.alter g [i] = upsert key (fun item children => (item, g children)) f) ∧
        ∀ u, f.relabel u [i] = upsert key (fun item children => (u item, children)) f := by
  induction f with
  | nil => exact .inl ⟨rfl, rfl⟩
  | node item children items _ ih =>
    by_cases hkey : key = item.key
    · refine .inr ⟨0, (item, children), ?_, ?_, rfl, ?_, ?_, ?_⟩
      · rw [getChildN, if_pos (.inr (congrArg some hkey))]
      · rw [first, if_pos hkey]
      · exact Forest.inside_root children
      · intro g
        rw [upsert, if_pos hkey, Forest.alter, Forest.alter_root]
      · intro u
        rw [upsert, if_pos hkey, Forest.relabel]
    · have hno : ¬ (some key = none ∨ some key = some item.key) := by simp [hkey]
      rw [getChildN, if_neg hno, first, if_neg hkey]
      rcases ih with ⟨hnone, hfirst⟩ | ⟨i, m, hi, hfirst, hlabel, hinside, halter, hrelabel⟩
      · exact .inl ⟨by rw [hnone]; rfl, hfirst⟩
      · refine .inr ⟨i + 1, m, by rw [hi]; rfl, hfirst, hlabel, hinside, ?_, ?_⟩
        · intro g
          rw [upsert, if_neg hkey, Forest.alter, halter]
        · intro u
          rw [upsert, if_neg hkey, Forest.relabel, hrelabel]

/-- A path that is found is not that of the node itself. -/
theorem getSubkeyNth_ne_nil {n : Nat} {keys : List (List Char)} {pc : Path}
    (h : getSubkeyNth n keys f = some pc) : pc ≠ [] := by
  unfold getSubkeyNth at h
  split at h
  · cases h
  · obtain ⟨i, -, rfl⟩ := Option.map_eq_some_iff.mp h
    simp
  · simp only [Option.bind_eq_bind, Option.bind_eq_some_iff] at h
    obtain ⟨i, -, child, -, pc', -, heq⟩ := h
    cases heq
    simp

/-- **Getting a key** follows its pieces. -/
theorem getSubkeyNth_value (keys : List (List Char)) (f : Forest Item) :
    ((getSubkeyNth 0 keys f).bind fun pc => (f.label pc).bind Item.value) = valueAt keys f := by
  induction keys generalizing f with
  | nil => rfl
  | cons key keys ih =>
    rcases getChildN_zero key f with ⟨hnone, hfirst⟩ | ⟨i, m, hi, hfirst, hlabel, hinside, -⟩
    · cases keys with
      | nil => simp [getSubkeyNth, valueAt, hnone, hfirst]
      | cons k ks => simp [getSubkeyNth, valueAt, hnone, hfirst]
    · cases keys with
      | nil => simp [getSubkeyNth, valueAt, hi, hfirst, hlabel]
      | cons k ks =>
        rw [valueAt_cons (by simp), hfirst, Option.bind_some, ← ih m.2]
        simp only [getSubkeyNth, hi, hinside, Option.bind_eq_bind, Option.bind_some]
        cases hsub : getSubkeyNth 0 (k :: ks) m.2 with
        | none => rfl
        | some pc =>
          obtain ⟨j, pc, rfl⟩ := List.exists_cons_of_ne_nil (getSubkeyNth_ne_nil hsub)
          simp only [Option.bind_some, Forest.label_cons, hinside]

theorem getSubkeyValue_eq (subkey : List Char) (f : Forest Item) :
    getSubkeyValue subkey f = valueAt (splitDots subkey) f :=
  getSubkeyNth_value (splitDots subkey) f

/-- What is found or made: in the children `cs'`, the one at `i` is the first with the key. -/
theorem childFor_spec (hp : c.children.inside p = some cs) (key : List Char) :
    ∃ i cs' behind, c.childFor p key true =
    ({ c with children := c.children.alter (fun _ => cs') p }, i) ∧
      cs'.inside [i] = some behind ∧
      (∀ g, cs'.alter g [i] = upsert key (fun item children => (item, g children)) cs) ∧
      ∀ u, cs'.relabel u [i] = upsert key (fun item children => (u item, children)) cs := by
  have hat : (c.children.inside p).getD .nil = cs := by rw [hp, Option.getD_some]
  rcases getChildN_zero key cs with ⟨hnone, hfirst⟩ | ⟨i, m, hi, -, -, hinside, halter, hrelabel⟩
  · refine ⟨cs.length, cs.append (.node ⟨key, none⟩ .nil .nil), .nil, ?_, ?_, ?_, ?_⟩
    · have hnew : c.children.alter (·.append (.node ⟨key, none⟩ .nil .nil)) p =
          c.children.alter (fun _ => cs.append (.node ⟨key, none⟩ .nil .nil)) p :=
          Forest.alter_congr hp rfl
      simp only [childFor, addChild, if_true, hat, hnone, hnew]
    · rw [Forest.inside_behind, Forest.inside_root]
    · intro g
      rw [Forest.alter_behind, Forest.alter_root, upsert_of_none hfirst]
    · intro u
      rw [Forest.relabel_behind, upsert_of_none hfirst]
  · refine ⟨i, cs, m.2, ?_, hinside, halter, hrelabel⟩
    simp only [childFor, if_true, hat, hi]
    rw [Forest.alter_self hp]

theorem putValue_putValue (c : Config) (p : Path) (val val' : Option (List Char)) :
    (c.putValue p val').putValue p val = c.putValue p val := by
  unfold putValue
  by_cases hp : p = []
  · rw [if_pos hp, if_pos hp, if_pos hp]
  · rw [if_neg hp, if_neg hp, if_neg hp, Forest.relabel_relabel]

theorem setValue_plain {val : Option (List Char)} (hval : ∀ v ∈ val, ¬ ['$', '{'] <:+: v) :
    c.setValue p val = (.ok, c.putValue p (val.map trim)) := by
  cases val with
  | none => rfl
  | some v =>
    rw [setValue]
    simp only [expand_plain (hval v rfl), putValue_putValue, Option.map_some]

/-- A child that is not to be an old one is a new one. -/
theorem childFor_new (hp : c.children.inside p = some cs) (key : List Char) :
    c.childFor p key false =
    ({ c with children := c.children.alter (·.append (.node ⟨key, none⟩ .nil .nil)) p },
      cs.length) := by
  simp [childFor, addChild, hp]

/-- A key without a dot that is not to be overwritten is set on a new child. -/
theorem doSetKey_new (hp : c.children.inside p = some cs) (key : List Char) {val : List Char}
    (hval : ¬ ['$', '{'] <:+: val) :
    doSetKey (some val) false [key] c p =
      (.ok, { c with
        children := c.children.alter (·.append (.node ⟨key, some (trim val)⟩ .nil .nil)) p },
        p ++ [cs.length]) := by
  have hplain : ∀ v ∈ some val, ¬ ['$', '{'] <:+: v := fun v hv => Option.some.inj hv ▸ hval
  have hnew : c.children.alter (fun f => (f.append (.node ⟨key, none⟩ .nil .nil)).relabel
        (fun item => { item with value := some (trim val) }) [cs.length]) p =
      c.children.alter (·.append (.node ⟨key, some (trim val)⟩ .nil .nil)) p :=
    Forest.alter_congr hp (Forest.relabel_behind _ cs ⟨key, none⟩ .nil .nil)
  rw [doSetKey, childFor_new hp]
  simp only
  rw [setValue_plain hplain, putValue, if_neg (by simp)]
  simp only [Forest.relabel_append_path, Forest.alter_alter, Option.map_some, hnew]

/-- **Setting a key** changes the first child of each name, or adds one. -/
theorem doSetKey_eq {keys : List (List Char)} (hkeys : keys ≠ []) {val : Option (List Char)}
    (hval : ∀ v ∈ val, ¬ ['$', '{'] <:+: v) (hp : c.children.inside p = some cs) :
    ∃ child, doSetKey val true keys c p =
      (.ok, { c with children := c.children.alter (putAt (val.map trim) keys) p }, child) := by
  induction keys generalizing c p cs with
  | nil => exact absurd rfl hkeys
  | cons key keys ih =>
    obtain ⟨i, cs', behind, hchild, hinside, halter, hrelabel⟩ := childFor_spec hp key
    cases keys with
    | nil =>
      have hset : putValue { c with children := c.children.alter (fun _ => cs') p }
        (p ++ [i]) (val.map trim) =
          { c with children := c.children.alter (putAt (val.map trim) [key]) p } := by
        have hne : p ++ [i] ≠ [] := by simp
        rw [putValue, if_neg hne]
        simp only [Forest.relabel_append_path, Forest.alter_alter]
        rw [Forest.alter_congr hp (hrelabel _)]
        rfl
      refine ⟨p ++ [i], ?_⟩
      rw [doSetKey, hchild]
      simp only
      rw [setValue_plain hval, hset]
    | cons k ks =>
      have hp' : (c.children.alter (fun _ => cs') p).inside (p ++ [i]) = some behind := by
        rw [Forest.inside_append_path, Forest.inside_alter hp, Option.bind_some, hinside]
      obtain ⟨child, hset⟩ := @ih { c with children := c.children.alter (fun _ => cs') p }
        (p ++ [i]) behind
        (by simp) hp'
      refine ⟨child, ?_⟩
      have halter' : c.children.alter (fun _ => cs'.alter (putAt (val.map trim) (k :: ks)) [i]) p =
          c.children.alter (putAt (val.map trim) (key :: k :: ks)) p :=
          Forest.alter_congr hp (halter _)
      simp only [doSetKey, hchild, hset, Forest.alter_append_path, Forest.alter_alter, halter']

end Code

/-! ## 4. Set and get -/

/-- A value with a `${name}` in it. -/
def HasReference (val : List Char) : Prop :=
  ∃ pre name post, val = pre ++ ['$', '{'] ++ name ++ '}' :: post

theorem expand_open {lookup : List Char → Except Ret (List Char)}
    {var val : List Char} (h : '}' ∉ val) : expand lookup (some var) val = .error .err := by
  induction val generalizing var with
  | nil => simp [expand]
  | cons c val ih =>
    rw [List.mem_cons, not_or] at h
    rw [expand, if_neg (Ne.symm h.1), ih h.2]

/-- A `${` that no `}` follows is an error. -/
theorem expand_unclosed (lookup : List Char → Except Ret (List Char)) {val : List Char}
    (hopen : ['$', '{'] <:+: val) (href : ¬ HasReference val) :
    expand lookup none val = .error .err := by
  induction val with
  | nil => simp at hopen
  | cons c val ih =>
    have htail : ¬ HasReference val := by
      rintro ⟨pre, name, post, rfl⟩
      exact href ⟨c :: pre, name, post, rfl⟩
    by_cases hpre : ['$', '{'] <+: c :: val
    · obtain ⟨rest, hrest⟩ := hpre
      obtain ⟨rfl, rfl⟩ := List.cons.inj hrest
      have hclose : '}' ∉ rest := by
        intro hmem
        obtain ⟨name, post, rfl⟩ := List.append_of_mem hmem
        exact href ⟨[], name, post, rfl⟩
      exact expand_open hclose
    · have hin := (List.infix_cons_iff.mp hopen).resolve_left hpre
      rw [expand_cons lookup hpre, ih hin htail]
      rfl

/-- What cannot be expanded is not set. -/
theorem doSetKey_error {val : List Char} (hval : ∀ lookup, expand lookup none val = .error .err)
    (overwrite : Bool) (keys : List (List Char)) (c : Config) (p : Path) :
    (doSetKey (some val) overwrite keys c p).1 = .err := by
  induction keys generalizing c p with
  | nil => rfl
  | cons key keys ih =>
    cases keys with
    | nil => simp only [doSetKey, setValue, hval]
    | cons k ks => exact ih _ _

/-- **After a key has been set** on the node at `p`, from there it has the value without the blanks
around it, and every other key has the value it had.  The key is a dotted path, whose missing nodes
are added without values; that no other path leads to one of them is the point of the proof. -/
theorem set_get (c c' : Config) (p : Path) (cs : Forest Item) (key : List Char)
    (val : Option (List Char))
    (hp : c.children.inside p = some cs) (href : ∀ v ∈ val, ¬ HasReference v)
    (hset : c.setKey p key val = (.ok, c')) :
    ∃ cs', c'.children.inside p = some cs' ∧ getSubkeyValue key cs' = val.map trim ∧
      ∀ key' ≠ key, getSubkeyValue key' cs' = getSubkeyValue key' cs := by
  have hplain : ∀ v ∈ val, ¬ ['$', '{'] <:+: v := by
    rintro v rfl hopen
    have herr := doSetKey_error (fun lookup => expand_unclosed lookup hopen (href v rfl)) true
      (splitDots key) c p
    rw [setKey] at hset
    rw [(Prod.mk.inj hset).1] at herr
    cases herr
  have hkey := splitDots_ne_nil key
  obtain ⟨child, heq⟩ := doSetKey_eq hkey hplain hp
  rw [setKey, heq] at hset
  obtain ⟨-, rfl⟩ := Prod.mk.inj hset
  refine ⟨putAt (val.map trim) (splitDots key) cs, Forest.inside_alter hp, ?_, ?_⟩
  · rw [getSubkeyValue_eq, valueAt_putAt_self hkey]
  · intro key' hne
    rw [getSubkeyValue_eq, getSubkeyValue_eq, valueAt_putAt_ne hkey fun h => hne (splitDots_inj h)]

/-- `a.b` is set to a value with blanks around it, next to an `a` that is there. -/
theorem set_get_nested :
    ∃ cs', (create.addChild [] ['a']).1.setKey [] ['a', '.', 'b'] (some [' ', 'v', '\t']) =
    (.ok, ⟨none, cs'⟩) ∧
      getSubkeyValue ['a', '.', 'b'] cs' = some ['v'] ∧ getSubkeyValue ['a'] cs' = none := by
  have href : ∀ v ∈ some [' ', 'v', '\t'], ¬ HasReference v := by
    rintro v hv ⟨pre, name, post, heq⟩
    have hmem : '$' ∈ v := by simp [heq]
    obtain rfl := Option.some.inj hv
    simp at hmem
  obtain ⟨cs', hin, hval, hrest⟩ := set_get (create.addChild [] ['a']).1
    ⟨none, .node ⟨['a'], none⟩ (.node ⟨['b'], some ['v']⟩ .nil .nil) .nil⟩ []
      (.node ⟨['a'], none⟩ .nil .nil)
    ['a', '.', 'b'] (some [' ', 'v', '\t']) rfl href rfl
  obtain rfl := Option.some.inj ((Forest.inside_root _).symm.trans hin)
  exact ⟨_, rfl, hval.trans rfl, (hrest ['a'] (by decide)).trans rfl⟩

end Libu.Config
