import WitnetCore.Chain
import WitnetCore.BlocksManager
import WitnetCore.BlocksManager.Index
import WitnetCore.BlocksManager.History
import WitnetCore.BlocksManager.Order
import WitnetCore.BlocksManager.Actor
import WitnetCore.BlocksManager.Commute
import WitnetCore.BlocksManager.Lifetime
