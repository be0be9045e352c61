import Ronin.Trie.Nibbles
import Ronin.Trie.Codec
import Ronin.Trie.Mpt
import Ronin.Trie.MptInsert
import Ronin.Trie.StackTrie
import Ronin.Trie.StackTrieLemmas
import Ronin.Trie.Refinement
import Ronin.Trie.Frontier
import Ronin.Trie.Commit
import Ronin.Trie.CommitOrder
import Ronin.Types.Transaction
import Ronin.Types.TxJson
import Ronin.Core.IntrinsicGas
import Ronin.Core.StateTransition
import Ronin.Core.ValueFlow
import Ronin.Core.Authorization
import Ronin.Core.PreCheck
import Ronin.Core.ApplyMessage
