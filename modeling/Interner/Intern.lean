import Interner.Program

namespace Interner

variable {w : Width}

namespace Program

def collide (hash : Hash w) (candidate : Bytes) : Program w (Except (StoreError w) (Hash w)) :=
  lookup hash fun stored =>
    let existing := Utf8.lossy (stored.getD [])
    let refused := Utf8.lossy candidate
    record (.event (.collided hash existing refused))
      (done (.error (.collision hash existing refused)))

def intern (content : Bytes) : Program w (Except (StoreError w) (Hash w)) :=
  let hash := Hash.ofBytes content
  insert hash content fun status =>
    if status = .collision then collide hash content else done (.ok hash)

/-- Interns the string stored under `stem` followed by `suffix`, hashing only the suffix. -/
def internExtension (stem : Hash w) (suffix : Bytes) : Program w (Except (StoreError w) (Hash w)) :=
  let hash := Hash.extend stem suffix
  insertExtension hash stem suffix fun result =>
    match result with
    | .error error => done (.error error)
    | .ok .collision => lookup stem fun head => collide hash (head.getD [] ++ suffix)
    | .ok _ => done (.ok hash)

end Program

namespace IdStore

variable {σ : Type} [IdStore σ w]

def intern (store : σ) (content : Bytes) : Outcome σ Unit w (Except (StoreError w) (Hash w)) :=
  (Program.intern content).run store ()

def internExtension (store : σ) (stem : Hash w) (suffix : Bytes) :
    Outcome σ Unit w (Except (StoreError w) (Hash w)) :=
  (Program.internExtension stem suffix).run store ()

end IdStore

end Interner
